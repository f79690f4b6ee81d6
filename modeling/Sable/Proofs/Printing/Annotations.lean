import Sable.Proofs.Forms.Rules
import Sable.Proofs.Printing.Spelling
import Sable.Proofs.Spans.Names

/-!
# Annotations in words

`TypeExpr.words`: the names and signs in the text of an annotation, with parentheses around the element
of an array only. The text of a `Formed` annotation spells its words (`SpellsOut`), and what the grammar
reads as an annotation is formed (`MadeOf`).
-/

namespace Sable

/-- Lists of words with a sign between any two. -/
def separated (s : Symbol) : List (List Word) → List Word
  | [] => []
  | first :: others => first ++ others.flatMap (s.word :: ·)

namespace TypeExpr

mutual

/-- The words of an annotation. A definition is none. -/
def words : TypeExpr → List Word
  | word text _ => [(.identifier, text)]
  | named name => [(.identifier, name.text)]
  | generic name args =>
    (.identifier, name.text) ::
      Symbol.less.word :: (separated .comma (wordsOf args) ++ [Symbol.greater.word])
  | union members _ => separated .pipe (wordsOf members)
  | array element _ =>
    (if element.isOpen then parenthesized (words element) else words element) ++
      [Symbol.openBracket.word, Symbol.closeBracket.word]
  | function params result _ =>
    (.keyword .fnWord, Keyword.fnWord.text) ::
      (parenthesized (separated .comma (wordsOf params)) ++ resultWords result)
  | struct .. | contract .. | aliased .. => []

def wordsOf : List TypeExpr → List (List Word)
  | [] => []
  | type :: rest => words type :: wordsOf rest

def resultWords : Option TypeExpr → List Word
  | none => []
  | some type => Symbol.arrow.word :: words type

end

theorem wordsOf_eq (types : List TypeExpr) : wordsOf types = types.map words := by
  induction types with
  | nil => rfl
  | cons type rest ih => rw [wordsOf, ih, List.map_cons]

/-- Names are identifiers that no primitive type has taken, a generic type has arguments, and a
union has two members at least. -/
inductive Formed : TypeExpr → Prop
  | primitive (type : Primitive) (span : Span) : Formed (.primitive type span)
  | named {name : Name} (word : IsIdentifier name.text) (free : Primitive.ofName? name.text = none) :
      Formed (.named name)
  | generic {name : Name} {args : List TypeExpr} (word : IsIdentifier name.text)
      (free : Primitive.ofName? name.text = none) (some : args ≠ []) (h : ∀ a ∈ args, Formed a) :
      Formed (.generic name args)
  | union {members : List TypeExpr} {span : Span} (several : 2 ≤ members.length)
      (h : ∀ m ∈ members, Formed m) : Formed (.union members span)
  | array {element : TypeExpr} {span : Span} (h : Formed element) : Formed (.array element span)
  | function {params : List TypeExpr} {result : Option TypeExpr} {span : Span}
      (hp : ∀ p ∈ params, Formed p) (hr : ∀ r ∈ result, Formed r) :
      Formed (.function params result span)

end TypeExpr

/-! ### Texts spell words -/

theorem Primitive.isIdentifier (type : Primitive) : IsIdentifier type.name where
  start := by
    cases type <;> exact ⟨_, _, rfl, by decide, List.all_eq_true.1 (by decide)⟩
  free word := by
    cases type <;> cases word <;> decide

/-- What a text of words may begin with, behind a sign or a blank. -/
def Opening (cs : List Char) : Prop :=
  ∀ c ∈ cs.head?, c ≠ '=' ∧ c ≠ '|' ∧ Lexeme.isSpace c = false

theorem Opening.not_sign {cs : List Char} (h : Opening cs) : ∀ c ∈ cs.head?, c ≠ '=' ∧ c ≠ '|' :=
  fun c hc => ⟨(h c hc).1, (h c hc).2.1⟩

theorem Opening.solid {cs : List Char} (h : Opening cs) : ∀ c ∈ cs.head?, Lexeme.isSpace c = false :=
  fun c hc => (h c hc).2.2

theorem Ty.Closed.not_sign {r : List Char} (h : Ty.Closed r) : ∀ c ∈ r.head?, c ≠ '=' ∧ c ≠ '|' := by
  intro c hc
  rcases h c hc with rfl | rfl | rfl | rfl | rfl <;> decide

namespace Spells

variable {cs : List Char} {words : List Word}

theorem identifier {text : String} (word : IsIdentifier text)
    (hcs : ∀ c ∈ cs.head?, Text.isWordChar c = false) (h : Spells cs words) :
    Spells (text.toList ++ cs) ((.identifier, text) :: words) := by
  refine .word (word.firstMatch hcs) rfl (fun hmem => ?_) h
  have := word.isWord.all _ hmem
  revert this
  decide

theorem sign {s : Symbol} (hs : s ∈ Symbol.inTypes) (hcs : ∀ c ∈ cs.head?, c ≠ '=' ∧ c ≠ '|')
    (h : Spells cs words) : Spells (s.text.toList ++ cs) (s.word :: words) := by
  have hkinds : ∀ s ∈ Symbol.inTypes, (Kind.symbol s).isOrdinary = true ∧ '\n' ∉ s.text.toList := by
    decide
  exact .word (Token.firstMatch_sign hs hcs) (hkinds s hs).1 (hkinds s hs).2 h

end Spells

theorem toList_intercalate_cons (separator text : String) (texts : List String) :
    (separator.intercalate (text :: texts)).toList =
      text.toList ++ texts.flatMap fun t => separator.toList ++ t.toList := by
  rw [String.toList_intercalate]
  induction texts generalizing text with
  | nil => simp
  | cons other texts ih =>
    have hrest := ih other
    rw [List.map_cons] at hrest
    rw [List.map_cons, List.map_cons, List.intercalate_cons_cons, hrest]
    simp

namespace TypeExpr.Formed

variable {t : TypeExpr}

/-- A text begins with a word or a parenthesis. -/
theorem head (h : t.Formed) :
    ∃ c cs, t.text.toList = c :: cs ∧ (Text.isWordStart c = true ∨ c = '(') := by
  induction h with
  | primitive type span =>
    obtain ⟨c, cs, htext, hc, -⟩ := type.isIdentifier.start
    exact ⟨c, cs, htext, .inl hc⟩
  | named word _ =>
    obtain ⟨c, cs, htext, hc, -⟩ := word.start
    exact ⟨c, cs, htext, .inl hc⟩
  | generic word _ _ _ _ =>
    obtain ⟨c, cs, htext, hc, -⟩ := word.start
    simp only [text, String.toList_append, htext, List.cons_append]
    exact ⟨c, _, rfl, .inl hc⟩
  | @union members span several h ih =>
    obtain ⟨m, ms, rfl⟩ := List.exists_cons_of_length_pos (Nat.lt_of_lt_of_le Nat.zero_lt_two several)
    obtain ⟨c, cs, htext, hc⟩ := ih m List.mem_cons_self
    rw [text, texts, toList_intercalate_cons, htext, List.cons_append]
    exact ⟨c, _, rfl, hc⟩
  | @array element span h ih =>
    obtain ⟨c, cs, htext, hc⟩ := ih
    rw [text]
    split
    · rw [String.toList_append, String.toList_append]
      exact ⟨'(', _, rfl, .inr rfl⟩
    · rw [String.toList_append, htext, List.cons_append]
      exact ⟨c, _, rfl, hc⟩
  | function _ _ _ _ =>
    simp only [text, String.toList_append]
    exact ⟨'f', _, rfl, .inl rfl⟩

theorem opening (h : t.Formed) (rest : List Char) : Opening (t.text.toList ++ rest) := by
  obtain ⟨c, cs, htext, hc⟩ := h.head
  have hnone : ∀ d ∈ ['=', '|', ' ', '\t'], Text.isWordStart d = false ∧ d ≠ '(' := by
    simp only [List.forall_mem_cons, List.not_mem_nil, false_implies, implies_true, and_true]
    decide
  have hmem : c ∉ ['=', '|', ' ', '\t'] := by
    intro hmem
    rcases hc with hc | hc
    · rw [(hnone c hmem).1] at hc
      cases hc
    · exact (hnone c hmem).2 hc
  rw [htext]
  rintro d ⟨⟩
  simpa [Lexeme.isSpace] using hmem

end TypeExpr.Formed

/-- What stands between two parts of a text: a sign with blanks, the first of which ends a word. -/
structure Parts (separator : String) (s : Symbol) : Prop where
  closed : ∀ cs, Ty.Closed (separator.toList ++ cs)
  spells : ∀ {cs words}, Opening cs → Spells cs words →
    Spells (separator.toList ++ cs) (s.word :: words)

theorem parts_comma : Parts ", " .comma where
  closed cs := by
    rintro c ⟨⟩
    exact .inl rfl
  spells hcs h := by
    have hblank := Spells.blank hcs.solid h
    exact .sign (s := .comma) (by decide) (by rintro c ⟨⟩; decide) hblank

theorem parts_bar : Parts " | " .pipe where
  closed cs := by
    rintro c ⟨⟩
    exact .inr (.inr (.inr (.inl rfl)))
  spells hcs h := by
    have hblank := Spells.blank hcs.solid h
    have hsign : Spells ('|' :: ' ' :: _) (Symbol.pipe.word :: _) :=
      .sign (s := .pipe) (by decide) (by rintro c ⟨⟩; decide) hblank
    exact .blank (by rintro c ⟨⟩; rfl) hsign

namespace TypeExpr

/-- The text spells the words of the annotation, whatever is spelled behind it. -/
def SpellsOut (t : TypeExpr) : Prop :=
  ∀ {cs words}, Ty.Closed cs → Spells cs words → Spells (t.text.toList ++ cs) (t.words ++ words)

theorem spells_others {separator : String} {s : Symbol} (hparts : Parts separator s)
    {types : List TypeExpr} (hformed : ∀ t ∈ types, t.Formed) (htypes : ∀ t ∈ types, t.SpellsOut)
    {cs : List Char} {words : List Word} (hcs : Ty.Closed cs) (h : Spells cs words) :
    Ty.Closed (((texts types).flatMap fun t => separator.toList ++ t.toList) ++ cs) ∧
      Spells (((texts types).flatMap fun t => separator.toList ++ t.toList) ++ cs)
        ((wordsOf types).flatMap (s.word :: ·) ++ words) := by
  induction types with
  | nil => exact ⟨hcs, h⟩
  | cons t types ih =>
    obtain ⟨hformed, hformeds⟩ := List.forall_mem_cons.1 hformed
    obtain ⟨ht, hts⟩ := List.forall_mem_cons.1 htypes
    obtain ⟨hclosed, hspells⟩ := ih hformeds hts
    simp only [texts, wordsOf, List.flatMap_cons, List.append_assoc, List.cons_append]
    exact ⟨hparts.closed _, hparts.spells (hformed.opening _) (ht hclosed hspells)⟩

/-- Annotations with a separator between any two. -/
theorem spells_list {separator : String} {s : Symbol} (hparts : Parts separator s)
    {types : List TypeExpr} (hformed : ∀ t ∈ types, t.Formed) (htypes : ∀ t ∈ types, t.SpellsOut)
    {cs : List Char} {words : List Word} (hcs : Ty.Closed cs) (h : Spells cs words) :
    Spells ((separator.intercalate (texts types)).toList ++ cs)
      (separated s (wordsOf types) ++ words) := by
  cases types with
  | nil => simpa [texts, wordsOf, separated] using h
  | cons t types =>
    obtain ⟨hformed, hformeds⟩ := List.forall_mem_cons.1 hformed
    obtain ⟨ht, hts⟩ := List.forall_mem_cons.1 htypes
    obtain ⟨hclosed, hspells⟩ := spells_others hparts hformeds hts hcs h
    rw [texts, wordsOf, toList_intercalate_cons, separated, List.append_assoc, List.append_assoc]
    exact ht hclosed hspells

theorem opening_list (separator : String) {types : List TypeExpr} (hformed : ∀ t ∈ types, t.Formed)
    {cs : List Char} (hcs : Opening cs) :
    Opening ((separator.intercalate (texts types)).toList ++ cs) := by
  cases types with
  | nil => simpa [texts] using hcs
  | cons t types =>
    rw [texts, toList_intercalate_cons, List.append_assoc]
    exact (hformed t List.mem_cons_self).opening _

/-- The result of a function. -/
theorem spells_result {result : Option TypeExpr} (hformed : ∀ r ∈ result, r.Formed)
    (hresult : ∀ r ∈ result, r.SpellsOut) {cs : List Char} {words : List Word} (hcs : Ty.Closed cs)
    (h : Spells cs words) : Ty.Closed ((resultText result).toList ++ cs) ∧
      Spells ((resultText result).toList ++ cs) (resultWords result ++ words) := by
  cases result with
  | none => exact ⟨hcs, h⟩
  | some r =>
    have hr := hresult r rfl hcs h
    have hblank := Spells.blank ((hformed r rfl).opening cs).solid hr
    have harrow : Spells ('-' :: '>' :: ' ' :: (r.text.toList ++ cs))
        (Symbol.arrow.word :: (r.words ++ words)) :=
      .sign (s := .arrow) (by decide) (by rintro c ⟨⟩; decide) hblank
    have htext : (resultText (some r)).toList ++ cs =
        ' ' :: '-' :: '>' :: ' ' :: (r.text.toList ++ cs) := by simp [resultText]
    rw [htext]
    refine ⟨?_, .blank (by rintro c ⟨⟩; rfl) harrow⟩
    rintro c ⟨⟩
    exact .inr (.inr (.inr (.inl rfl)))

/-- A formed annotation spells its words. -/
theorem Formed.spellsOut {t : TypeExpr} (h : t.Formed) : t.SpellsOut := by
  induction h with
  | primitive type span => exact fun hcs h => .identifier type.isIdentifier hcs.not_word h
  | named word _ => exact fun hcs h => .identifier word hcs.not_word h
  | @generic name args word _ hsome hargs ih =>
    intro cs words hcs h
    -- built from the closing sign forwards, since a word ends by what follows it
    have hclose : Spells ('>' :: cs) (Symbol.greater.word :: words) :=
      .sign (s := .greater) (by decide) hcs.not_sign h
    have hlist := spells_list parts_comma hargs ih (by rintro c ⟨⟩; simp) hclose
    have hangle : Opening ('>' :: cs) := by
      rintro c ⟨⟩
      decide
    have hopening := opening_list ", " hargs hangle
    have hless : Spells ('<' :: _) (Symbol.less.word :: _) :=
      .sign (s := .less) (by decide) hopening.not_sign hlist
    have hname := Spells.identifier word (by rintro c ⟨⟩; decide) hless
    simpa [text, TypeExpr.words] using hname
  | union several hmembers ih => exact fun hcs h => spells_list parts_bar hmembers ih hcs h
  | @array element span helement ih =>
    intro cs words hcs h
    have hclose : Spells (']' :: cs) (Symbol.closeBracket.word :: words) :=
      .sign (s := .closeBracket) (by decide) hcs.not_sign h
    have hbrackets : Spells ('[' :: ']' :: cs)
        (Symbol.openBracket.word :: Symbol.closeBracket.word :: words) :=
      .sign (s := .openBracket) (by decide) (by rintro c ⟨⟩; decide) hclose
    cases hopen : element.isOpen with
    | false =>
      have helement := ih (by rintro c ⟨⟩; simp) hbrackets
      simpa [text, TypeExpr.words, hopen] using helement
    | true =>
      have hparen : Spells (')' :: '[' :: ']' :: cs) (Symbol.closeParen.word :: _) :=
        .sign (s := .closeParen) (by decide) (by rintro c ⟨⟩; decide) hbrackets
      have hinner := ih (by rintro c ⟨⟩; simp) hparen
      have hopening := helement.opening (')' :: '[' :: ']' :: cs)
      have houter : Spells ('(' :: _) (Symbol.openParen.word :: _) :=
        .sign (s := .openParen) (by decide) hopening.not_sign hinner
      simpa [text, TypeExpr.words, hopen, parenthesized] using houter
  | @function params result span hp hr ihp ihr =>
    intro cs words hcs h
    obtain ⟨hclosed, hresult⟩ := spells_result hr ihr hcs h
    have hclose : Spells (')' :: _) (Symbol.closeParen.word :: _) :=
      .sign (s := .closeParen) (by decide) hclosed.not_sign hresult
    have hlist := spells_list parts_comma hp ihp (by rintro c ⟨⟩; simp) hclose
    have hend : Opening (')' :: ((resultText result).toList ++ cs)) := by
      rintro c ⟨⟩
      decide
    have hopening := opening_list ", " hp hend
    have hparen : Spells ('(' :: _) (Symbol.openParen.word :: _) :=
      .sign (s := .openParen) (by decide) hopening.not_sign hlist
    have hfn : Spells ('f' :: 'n' :: _) ((.keyword .fnWord, Keyword.fnWord.text) :: _) :=
      .word (Token.firstMatch_fn (by rintro c ⟨⟩; decide)) rfl (by decide) hparen
    simpa [text, TypeExpr.words, parenthesized] using hfn

end TypeExpr

/-! ### What the grammar reads is formed -/

/-- The token is a word if it is an identifier. -/
def Token.IsSpelled (t : Token) : Prop :=
  t.kind = .identifier → IsIdentifier t.text

/-- The annotation is formed, and its names are those of tokens which satisfy `A`. -/
structure TypeExpr.MadeOf (A : Token → Prop) (type : TypeExpr) : Prop where
  formed : type.Formed
  names : ∀ n ∈ type.names, n.IsOf A

namespace Parser

variable {A P : Token → Prop} {inner member : Parser TypeExpr} {n b : Nat}

theorem finds_brackets : ∀ (budget : Nat) {type : TypeExpr}, type.MadeOf A →
    Finds A n (TypeExpr.MadeOf A) (brackets budget type)
  | 0, _, h => .pure h
  | budget + 1, type, h => by
    refine .look (fun c => ⟨c.here.kind, rfl⟩) fun _ => .look (fun c => ⟨c.kindAt 1, rfl⟩) fun _ => ?_
    refine .ite (fun _ => ?_) fun _ => .pure h
    refine .past coincide_next fun _ => .past coincide_next fun close => finds_brackets budget ?_
    exact ⟨.array h.formed, by rw [TypeExpr.names]; exact h.names⟩

theorem finds_unionTail {C : TypeExpr → Prop} (h : Finds A n C member) :
    ∀ budget, Finds A n (fun types => ∀ t ∈ types, C t) (unionTail member budget)
  | 0 => .pure (List.forall_mem_nil _)
  | budget + 1 => by
    refine .past (coincide_accept_any _) fun _ => .ite (fun _ => ?_) fun _ =>
      .pure (List.forall_mem_nil _)
    refine h.bind fun first hfirst => (finds_unionTail h budget).bind fun rest hrest => .pure ?_
    exact List.forall_mem_cons.2 ⟨hfirst, hrest⟩

/-- In front of a bar there is another member. -/
theorem finds_bars {C : TypeExpr → Prop} (h : Finds A n C member) (hb : n ≤ b + 1) :
    FindsIf A (fun t => t.kind = .symbol .pipe) n (fun types => types ≠ [] ∧ ∀ t ∈ types, C t)
      (unionTail member b) := by
  cases b with
  | zero =>
    intro c _ hk hn
    have hd : distance c = distance c.advance + 1 :=
      distance_advance (by rw [show c.here.kind = _ from hk]; decide)
    omega
  | succ b =>
    refine .accept (by decide) ?_ fun _ _ hP _ => absurd hP.1 hP.2
    refine FindsIf.mono ?_ (Nat.sub_le n 1)
    refine h.bind fun first hfirst => (finds_unionTail h b).bind fun rest hrest => .pure ?_
    exact ⟨List.cons_ne_nil _ _, List.forall_mem_cons.2 ⟨hfirst, hrest⟩⟩

section Rules

variable (hA : ∀ t, A t → t.IsSpelled) (h : Finds A n (TypeExpr.MadeOf A) inner) (hb : n ≤ b)
include hA h hb

theorem finds_simpleType : Finds A (n + 1) (TypeExpr.MadeOf A) (simpleType inner b) := by
  refine .kind fun k => ?_
  split
  · refine .identifier fun t ht hk => ?_
    have hword : IsIdentifier t.name.text := hA t ht hk
    have hname : t.name.IsOf A := ⟨t, ht, hk, rfl⟩
    cases hfree : Primitive.ofName? t.name.text with
    | some type =>
      refine .pure ⟨.primitive _ _, ?_⟩
      rw [TypeExpr.names, Primitive.name_of_ofName? hfree]
      exact List.forall_mem_singleton.2 hname
    | none =>
      refine .accept (by decide) ?_ (.pure ⟨.named hword hfree, ?_⟩)
      · refine FindsIf.mono ?_ (Nat.sub_le n 1)
        refine (finds_items h hb).bind fun args hargs => ?_
        refine .past (coincide_expect (by decide)).weak fun _ => .pure ⟨?_, ?_⟩
        · exact .generic hword hfree hargs.1 fun a ha => (hargs.2 a ha).formed
        · rw [TypeExpr.names]
          exact List.forall_mem_cons.2 ⟨hname, TypeExpr.forall_namesOf fun a ha => (hargs.2 a ha).names⟩
      · rw [TypeExpr.names]
        exact List.forall_mem_singleton.2 hname
  · refine .past (coincide_next_inside fun t ht => by rw [ht.2]; decide) fun start => ?_
    refine .past (coincide_expect (by decide)).weak fun _ => ?_
    refine (finds_listUntil _ h b).bind fun params hparams => ?_
    refine .past (coincide_expect (by decide)).weak fun _ => ?_
    refine (finds_after _ h).bind fun result hresult => ?_
    refine .look (fun c => ⟨c.last, rfl⟩) fun _ => .pure ⟨?_, ?_⟩
    · exact .function (fun p hp => (hparams p hp).formed) fun r hr => (hresult r hr).formed
    · rw [TypeExpr.names]
      exact List.forall_mem_append.2 ⟨TypeExpr.forall_namesOf fun p hp => (hparams p hp).names,
        TypeExpr.forall_resultNames fun r hr => (hresult r hr).names⟩
  · refine .past (coincide_next_inside fun t ht => by rw [ht.2]; decide) fun _ => ?_
    exact FindsIf.bind h fun type ht => .past (coincide_expect (by decide)).weak fun _ => .pure ht
  · exact .unexpected _

theorem finds_unionType : Finds A (n + 1) (TypeExpr.MadeOf A) (unionType inner b) := by
  have hmember : Finds A (n + 1) (TypeExpr.MadeOf A) (bracketType inner b) :=
    (finds_simpleType hA h hb).bind fun _ htype => finds_brackets b htype
  refine hmember.bind fun first hfirst => .kind fun k => .ite (fun hk => ?_) fun _ => .pure hfirst
  have hbars := (finds_bars hmember (Nat.succ_le_succ hb)).imp
    fun (t : Token) (ht : True ∧ t.kind = k) => ht.2.trans hk
  refine hbars.bind fun others hothers => .look (fun c => ⟨c.last, rfl⟩) fun _ => .pure ⟨?_, ?_⟩
  · refine .union ?_ (List.forall_mem_cons.2 ⟨hfirst.formed, fun t ht => (hothers.2 t ht).formed⟩)
    rw [List.length_cons]
    exact Nat.succ_le_succ (List.length_pos_of_ne_nil hothers.1)
  · rw [TypeExpr.names]
    refine TypeExpr.forall_namesOf (List.forall_mem_cons.2 ⟨hfirst.names, fun t ht => ?_⟩)
    exact (hothers.2 t ht).names

end Rules

theorem finds_typeExpr (hA : ∀ t, A t → t.IsSpelled) :
    ∀ {n b : Nat}, n ≤ b → Finds A n (TypeExpr.MadeOf A) (typeExpr b)
  | 0, _, _ => .zero
  | _ + 1, _ + 1, hb =>
    have hle := Nat.le_of_succ_le_succ hb
    finds_unionType hA (finds_typeExpr hA hle) hle

end Parser

/-- What is read as an annotation from the tokens of a text is formed. -/
theorem TypeExpr.formed_of_read {source : String} {tokens : List Token} {c c' : Cursor} {b : Nat}
    {t : TypeExpr} (htokens : Token.tokenize source = .ok tokens) (hc : c.rest ⊆ tokens)
    (hb : distance c < b) (h : Parser.typeExpr b c = .ok (t, c')) : t.Formed :=
  ((Parser.finds_typeExpr (fun _ hx => hx) (Nat.le_refl b) c
    (fun x hx => Token.isIdentifier_of_tokenize htokens x (hc hx)) trivial hb).2 t c' h).formed

end Sable
