import Sable.Proofs.Templates.Pieces
import Sable.Proofs.Types.Reflexivity

/-!
# Types told apart by their texts

`Ty.Readable` types with the same text are equal: every name in them means one thing, no union is a
member of another, and a function with a result is only the last member of a union. The text shows names
for declarations and has no parentheses around such members.
-/

namespace Sable

/-- Characters of words, and at least one. -/
structure IsWord (name : String) : Prop where
  some : name.toList ≠ []
  all : ∀ c ∈ name.toList, Text.isWordChar c = true

theorem IsWord.of_all {name : String} (hsome : name.toList.isEmpty = false)
    (hall : name.toList.all Text.isWordChar = true) : IsWord name where
  some := List.isEmpty_eq_false_iff.1 hsome
  all := List.all_eq_true.1 hall

namespace Ty

/-- A type whose text is its name. -/
def isNamed : Ty → Bool
  | primitive _ | struct .. | aliased .. | param .. | contract .. => true
  | _ => false

/-- A function that says what it gives, which leaves its text open at the end. -/
def hasResult : Ty → Bool
  | function _ (some _) => true
  | _ => false

/-- The names in the type mean what they are said to mean, and unions are written without
parentheses. -/
inductive Readable (meaning : String → Ty) : Ty → Prop
  | named {t : Ty} (named : t.isNamed = true) (word : IsWord t.text) (means : meaning t.text = t) :
      Readable meaning t
  | generic {name : String} {args : List Ty} (word : IsWord name) (some : args ≠ [])
      (h : ∀ a ∈ args, Readable meaning a) : Readable meaning (.generic name args)
  | union {members : List Ty} (several : 2 ≤ members.length)
      (flat : ∀ m ∈ members, m.isUnion = false)
      (closed : ∀ m ∈ members.dropLast, m.hasResult = false)
      (h : ∀ m ∈ members, Readable meaning m) : Readable meaning (.union members)
  | array {element : Ty} (h : Readable meaning element) : Readable meaning (.array element)
  | function {params : List Ty} {result : Option Ty} (hp : ∀ p ∈ params, Readable meaning p)
      (hr : ∀ r ∈ result, Readable meaning r) : Readable meaning (.function params result)

/-! ### Words and brackets -/

/-- Where a word ends, its end is seen from what follows. -/
theorem word_inj {w w' : String} {r r' : List Char} (hw : IsWord w) (hw' : IsWord w')
    (hr : ∀ c ∈ r.head?, Text.isWordChar c = false) (hr' : ∀ c ∈ r'.head?, Text.isWordChar c = false)
    (h : w.toList ++ r = w'.toList ++ r') : w = w' ∧ r = r' := by
  obtain ⟨htake, hdrop⟩ := Piece.word_ends hw.all hr
  obtain ⟨htake', hdrop'⟩ := Piece.word_ends hw'.all hr'
  rw [h] at htake hdrop
  exact ⟨String.toList_inj.1 (htake.symm.trans htake'), hdrop.symm.trans hdrop'⟩

/-- Pairs of brackets. -/
def brackets : Nat → List Char
  | 0 => []
  | n + 1 => '[' :: ']' :: brackets n

theorem brackets_succ (n : Nat) : brackets (n + 1) = brackets n ++ ['[', ']'] := by
  induction n with
  | zero => rfl
  | succ n ih =>
    show '[' :: ']' :: brackets (n + 1) = '[' :: ']' :: (brackets n ++ ['[', ']'])
    rw [ih]

/-- What may stand behind a type on its own: the end, or the next place of a list, or its end. -/
def Stops (r : List Char) : Prop :=
  ∀ c ∈ r.head?, c = ',' ∨ c = ')' ∨ c = '>'

/-- What may stand behind a member of a union, too: the bar, unless the member is open at its end. -/
def Follows (t : Ty) (r : List Char) : Prop :=
  Stops r ∨ t.hasResult = false ∧ ∃ r', r = ' ' :: '|' :: ' ' :: r'

/-- The characters that may stand behind the name of a type. -/
def Closed (r : List Char) : Prop :=
  ∀ c ∈ r.head?, c = ',' ∨ c = ')' ∨ c = '>' ∨ c = ' ' ∨ c = '['

theorem Follows.closed {t : Ty} {r : List Char} (h : Follows t r) (n : Nat) :
    Closed (brackets n ++ r) := by
  cases n with
  | succ n =>
    intro c hc
    cases hc
    simp
  | zero =>
    intro c hc
    rcases h with h | ⟨-, r', rfl⟩
    · rcases h c hc with h | h | h <;> simp [h]
    · cases hc
      simp

theorem Closed.not_word {r : List Char} (h : Closed r) : ∀ c ∈ r.head?, Text.isWordChar c = false := by
  intro c hc
  rcases h c hc with rfl | rfl | rfl | rfl | rfl <;> decide

theorem Follows.ne_bracket {t : Ty} {r : List Char} (h : Follows t r) : ∀ c ∈ r.head?, c ≠ '[' := by
  rintro c hc rfl
  rcases h with h | ⟨-, r', rfl⟩
  · simpa using h _ hc
  · simp at hc

theorem brackets_inj {r r' : List Char} (hr : ∀ c ∈ r.head?, c ≠ '[') (hr' : ∀ c ∈ r'.head?, c ≠ '[') :
    ∀ {n n' : Nat}, brackets n ++ r = brackets n' ++ r' → n = n' ∧ r = r'
  | 0, 0, h => ⟨rfl, h⟩
  | n + 1, n' + 1, h => by
    obtain ⟨rfl, hrest⟩ := brackets_inj hr hr' (List.cons.inj (List.cons.inj h).2).2
    exact ⟨rfl, hrest⟩
  | 0, n' + 1, h => by
    obtain rfl : r = '[' :: ']' :: (brackets n' ++ r') := h
    exact absurd rfl (hr _ rfl)
  | n + 1, 0, h => by
    obtain rfl : '[' :: ']' :: (brackets n ++ r) = r' := h
    exact absurd rfl (hr' _ rfl)

/-! ### How a type is written -/

/-- Arrays of arrays, so many levels deep. -/
def arrays : Nat → Ty → Ty
  | 0, t => t
  | n + 1, t => array (arrays n t)

def comma : List Char :=
  [',', ' ']

def bar : List Char :=
  [' ', '|', ' ']

/-- Types with a comma between any two. -/
def listed (ts : List Ty) : List Char :=
  comma.intercalate (ts.map fun t => t.text.toList)

/-- Types with a separator in front of each. -/
def behind (separator : List Char) (ts : List Ty) : List Char :=
  ts.flatMap fun t => separator ++ t.text.toList

/-- The result of a function, if it says what it gives. -/
def given : Option Ty → List Char
  | none => []
  | some t => ' ' :: '-' :: '>' :: ' ' :: t.text.toList

/-- The ways in which a type that is not a union can be written. -/
inductive Spelled (meaning : String → Ty) : Ty → List Char → Prop
  | named {t : Ty} (n : Nat) (named : t.isNamed = true) (word : IsWord t.text)
      (means : meaning t.text = t) : Spelled meaning (arrays n t) (t.text.toList ++ brackets n)
  | generic {name : String} {args : List Ty} (n : Nat) (word : IsWord name)
      (h : ∀ a ∈ args, Readable meaning a) :
      Spelled meaning (arrays n (.generic name args))
        (name.toList ++ '<' :: (listed args ++ '>' :: brackets n))
  | enclosed {t : Ty} (n : Nat) (h : Readable meaning t) :
      Spelled meaning (arrays (n + 1) t) ('(' :: (t.text.toList ++ ')' :: brackets (n + 1)))
  | function {params : List Ty} {result : Option Ty} (hp : ∀ p ∈ params, Readable meaning p)
      (hr : ∀ r ∈ result, Readable meaning r) :
      Spelled meaning (.function params result)
        ('f' :: 'n' :: '(' :: (listed params ++ ')' :: given result))

theorem texts_eq (ts : List Ty) : texts ts = ts.map text := by
  induction ts with
  | nil => rfl
  | cons t ts ih => rw [texts, ih, List.map_cons]

theorem toList_listed (ts : List Ty) : (", ".intercalate (texts ts)).toList = listed ts := by
  rw [String.toList_intercalate, texts_eq, List.map_map]
  rfl

theorem toList_given (result : Option Ty) : (resultText result).toList = given result := by
  cases result with
  | none => rfl
  | some t => rw [resultText, String.toList_append]; rfl

section

variable {meaning : String → Ty}

/-- Brackets behind a type that needs no parentheses. -/
theorem Spelled.array {t : Ty} {cs : List Char} (h : Spelled meaning t cs) (ho : t.isOpen = false) :
    Spelled meaning (.array t) (cs ++ ['[', ']']) := by
  cases h with
  | named n hnamed word means =>
    have h := Spelled.named (n + 1) hnamed word means
    rwa [brackets_succ, ← List.append_assoc] at h
  | @generic name args n word h =>
    have h := Spelled.generic (n + 1) word h
    rw [brackets_succ] at h
    simpa [arrays] using h
  | @enclosed t n h =>
    have h := Spelled.enclosed (n + 1) h
    rw [brackets_succ] at h
    simpa [arrays] using h
  | function => cases ho

/-- A type that is not a union is written in one of these ways. -/
theorem Readable.spelled {t : Ty} (h : t.Readable meaning) (hu : t.isUnion = false) :
    Spelled meaning t t.text.toList := by
  induction h with
  | named hnamed word means => simpa [arrays, brackets] using Spelled.named 0 hnamed word means
  | @generic name args word hsome h _ =>
    have hargs : (texts args).isEmpty = false := by
      cases args with
      | nil => exact absurd rfl hsome
      | cons a args => rfl
    have htext : (Ty.generic name args).text.toList = name.toList ++ '<' :: (listed args ++ ['>']) := by
      simp only [text, applied, hargs, Bool.false_eq_true, if_false, String.toList_append, toList_listed]
      simp
    rw [htext]
    exact .generic 0 word h
  | union => cases hu
  | @array element h ih =>
    -- parentheses stand around an element that would take the brackets for its last part
    cases ho : element.isOpen with
    | true =>
      have htext : (Ty.array element).text.toList = '(' :: (element.text.toList ++ [')', '[', ']']) := by
        simp [text, ho]
      rw [htext]
      exact .enclosed 0 h
    | false =>
      have htext : (Ty.array element).text.toList = element.text.toList ++ ['[', ']'] := by
        simp [text, ho]
      have hu : element.isUnion = false := by
        cases element <;> simp_all [isOpen, isUnion]
      rw [htext]
      exact (ih hu).array ho
  | @function params result hp hr _ _ =>
    have htext : (Ty.function params result).text.toList =
        'f' :: 'n' :: '(' :: (listed params ++ ')' :: given result) := by
      simp only [text, String.toList_append, toList_listed, toList_given]
      simp
    rw [htext]
    exact .function hp hr

/-! ### Reading back -/

/-- The type, and what stands behind it, can be told from its text. -/
def Told (meaning : String → Ty) (s : Ty) : Prop :=
  ∀ t r r', t.Readable meaning → s.text.toList ++ r = t.text.toList ++ r' → Stops r → Stops r' →
    s = t ∧ r = r'

/-- A text begins with a character of a word or a parenthesis. -/
theorem Spelled.head {t : Ty} {cs : List Char} (h : Spelled meaning t cs) :
    ∃ c r, cs = c :: r ∧ (Text.isWordChar c = true ∨ c = '(') := by
  have hword {name : String} (word : IsWord name) (r : List Char) :
      ∃ c r', name.toList ++ r = c :: r' ∧ (Text.isWordChar c = true ∨ c = '(') := by
    obtain ⟨c, cs, hcs⟩ := List.exists_cons_of_ne_nil word.some
    have hc : Text.isWordChar c = true := word.all c (by simp [hcs])
    exact ⟨c, cs ++ r, by rw [hcs]; rfl, .inl hc⟩
  cases h with
  | named n _ word _ => exact hword word _
  | generic n word _ => exact hword word _
  | enclosed n _ => exact ⟨_, _, rfl, .inr rfl⟩
  | function _ _ => exact ⟨_, _, rfl, .inl (by decide)⟩

theorem intercalate_cons (separator : List Char) (t : Ty) (ts : List Ty) :
    separator.intercalate ((t :: ts).map fun t => t.text.toList) =
      t.text.toList ++ behind separator ts := by
  induction ts generalizing t with
  | nil => simp [behind]
  | cons u us ih =>
    have hrest := ih u
    rw [List.map_cons] at hrest
    rw [List.map_cons, List.map_cons, List.intercalate_cons_cons, hrest]
    simp [behind]

/-- The members of a union, or the type itself. -/
def parts : Ty → List Ty
  | union members => members
  | t => [t]

theorem parts_of_not_union {t : Ty} (h : t.isUnion = false) : t.parts = [t] := by
  cases t <;> simp_all [parts, isUnion]

theorem text_eq_parts (t : Ty) :
    t.text.toList = bar.intercalate (t.parts.map fun m => m.text.toList) := by
  cases hu : t.isUnion with
  | false => rw [parts_of_not_union hu]; simp
  | true =>
    cases t with
    | union members =>
      rw [text, String.toList_intercalate, texts_eq, List.map_map]
      rfl
    | _ => cases hu

theorem Readable.union_or {t : Ty} (h : t.Readable meaning) :
    t.isUnion = false ∨ ∃ ms, t = Ty.union ms ∧ 2 ≤ ms.length ∧
      (∀ m ∈ ms, m.Readable meaning ∧ m.isUnion = false) ∧
      ∀ m ∈ ms.dropLast, m.hasResult = false := by
  cases h with
  | union several flat closed h =>
    exact .inr ⟨_, rfl, several, fun m hm => ⟨h m hm, flat m hm⟩, closed⟩
  | @named t hnamed _ _ => cases t <;> simp_all [isUnion, isNamed]
  | generic | array | function => exact .inl rfl

theorem Readable.of_parts {t : Ty} (h : t.Readable meaning) :
    (∀ m ∈ t.parts, m.Readable meaning ∧ m.isUnion = false) ∧
      ∀ m ∈ t.parts.dropLast, m.hasResult = false := by
  rcases h.union_or with hu | ⟨ms, rfl, -, hread, hclosed⟩
  · rw [parts_of_not_union hu]
    simp [h, hu]
  · exact ⟨hread, hclosed⟩

theorem Readable.parts_cons {t : Ty} (h : t.Readable meaning) : ∃ m ms, t.parts = m :: ms := by
  rcases h.union_or with hu | ⟨ms, rfl, hlen, -, -⟩
  · exact ⟨t, [], parts_of_not_union hu⟩
  · exact List.exists_cons_of_length_pos (Nat.lt_of_lt_of_le Nat.zero_lt_two hlen)

/-- Types with the same members are the same, since a union has two at least. -/
theorem Readable.eq_of_parts {s t : Ty} (hs : s.Readable meaning) (ht : t.Readable meaning)
    (h : s.parts = t.parts) : s = t := by
  rcases hs.union_or with hu | ⟨ms, rfl, hlen, -, -⟩ <;>
    rcases ht.union_or with hu' | ⟨ns, rfl, hlen', -, -⟩
  · rw [parts_of_not_union hu, parts_of_not_union hu'] at h
    exact (List.cons.inj h).1
  · rw [parts_of_not_union hu] at h
    rw [show ns = [s] from h.symm] at hlen'
    simp at hlen'
  · rw [parts_of_not_union hu'] at h
    rw [show ms = [t] from h] at hlen
    simp at hlen
  · rw [show ms = ns from h]

theorem Readable.head {t : Ty} (h : t.Readable meaning) :
    ∃ c r, t.text.toList = c :: r ∧ (Text.isWordChar c = true ∨ c = '(') := by
  obtain ⟨m, ms, hparts⟩ := h.parts_cons
  obtain ⟨hread, hu⟩ := h.of_parts.1 m (by simp [hparts])
  obtain ⟨c, r, hcs, hc⟩ := (hread.spelled hu).head
  refine ⟨c, r ++ behind bar ms, ?_, hc⟩
  rw [text_eq_parts, hparts, intercalate_cons, hcs]
  rfl

/-! ### Lists of types -/

section

variable {c : Char} {r r' : List Char}

theorem stops_of_close (hc : c = ')' ∨ c = '>') (ts : List Ty) (r : List Char) :
    Stops (behind comma ts ++ c :: r) := by
  intro d hd
  cases ts with
  | nil =>
    cases hd
    exact .inr hc
  | cons t ts =>
    cases hd
    exact .inl rfl

/-- The types behind the first one. -/
theorem tail_inj (hc : c = ')' ∨ c = '>') : ∀ {ps qs : List Ty}, (∀ p ∈ ps, Told meaning p) →
    (∀ q ∈ qs, q.Readable meaning) →
    behind comma ps ++ c :: r = behind comma qs ++ c :: r' → ps = qs ∧ r = r'
  | [], [], _, _, h => ⟨rfl, (List.cons.inj h).2⟩
  | [], q :: qs, _, _, h => by
    have hcomma : c = ',' := (List.cons.inj h).1
    simp [hcomma] at hc
  | p :: ps, [], _, _, h => by
    have hcomma : ',' = c := (List.cons.inj h).1
    simp [← hcomma] at hc
  | p :: ps, q :: qs, hp, hq, h => by
    rw [List.forall_mem_cons] at hp hq
    simp only [behind, List.flatMap_cons, List.append_assoc, List.append_cancel_left_eq] at h
    obtain ⟨rfl, hrest⟩ := hp.1 q _ _ hq.1 h (stops_of_close hc ps r) (stops_of_close hc qs r')
    obtain ⟨rfl, hr⟩ := tail_inj hc hp.2 hq.2 hrest
    exact ⟨rfl, hr⟩

theorem listed_cons (t : Ty) (ts : List Ty) :
    listed (t :: ts) = t.text.toList ++ behind comma ts :=
  intercalate_cons comma t ts

theorem head_ne_close (hc : c = ')' ∨ c = '>') {t : Ty} (ht : t.Readable meaning) :
    c :: r ≠ t.text.toList ++ r' := by
  intro h
  obtain ⟨d, ds, hd, hclass⟩ := ht.head
  rw [hd] at h
  obtain rfl : c = d := (List.cons.inj h).1
  rcases hc with rfl | rfl <;> revert hclass <;> decide

/-- A list of types, and what stands behind it, can be told from its text. -/
theorem listed_inj (hc : c = ')' ∨ c = '>') {ps qs : List Ty}
    (hp : ∀ p ∈ ps, p.Readable meaning ∧ Told meaning p) (hq : ∀ q ∈ qs, q.Readable meaning)
    (h : listed ps ++ c :: r = listed qs ++ c :: r') : ps = qs ∧ r = r' := by
  cases ps with
  | nil =>
    cases qs with
    | nil => exact ⟨rfl, (List.cons.inj h).2⟩
    | cons q qs =>
      rw [listed_cons, List.append_assoc] at h
      exact absurd h (head_ne_close hc (hq q List.mem_cons_self))
  | cons p ps =>
    rw [List.forall_mem_cons] at hp
    cases qs with
    | nil =>
      rw [listed_cons, List.append_assoc] at h
      exact absurd h.symm (head_ne_close hc hp.1.1)
    | cons q qs =>
      rw [List.forall_mem_cons] at hq
      rw [listed_cons, listed_cons, List.append_assoc, List.append_assoc] at h
      obtain ⟨rfl, hrest⟩ :=
        hp.1.2 q _ _ hq.1 h (stops_of_close hc ps r) (stops_of_close hc qs r')
      obtain ⟨rfl, hr⟩ := tail_inj hc (fun p hmem => (hp.2 p hmem).2) hq.2 hrest
      exact ⟨rfl, hr⟩

end

/-! ### One type -/

section

variable {t : Ty} {cs r r' : List Char}

theorem word_ne_paren {w : String} (hw : IsWord w) : w.toList ++ r ≠ '(' :: r' := by
  intro h
  obtain ⟨c, cs, hcs⟩ := List.exists_cons_of_ne_nil hw.some
  have hc : Text.isWordChar c = true := hw.all c (by simp [hcs])
  rw [hcs] at h
  obtain rfl : c = '(' := (List.cons.inj h).1
  revert hc
  decide

theorem isWord_fn : IsWord "fn" :=
  .of_all rfl rfl

theorem not_word_of_cons {c : Char} (hc : Text.isWordChar c = false) :
    ∀ d ∈ (c :: r).head?, Text.isWordChar d = false := by
  intro d hd
  cases hd
  exact hc

theorem not_closed_of_cons {c : Char} (hc : c = '<' ∨ c = '(') : ¬ Closed (c :: r) := by
  intro h
  rcases hc with rfl | rfl <;> simpa using h _ rfl

theorem sizeOf_arrays (n : Nat) (t : Ty) : sizeOf t + n ≤ sizeOf (arrays n t) := by
  induction n with
  | zero => exact Nat.le_refl _
  | succ n ih =>
    rw [arrays, array.sizeOf_spec]
    omega

/-- A name, or an array of what has a name. -/
theorem named_inj {s : Ty} {n : Nat} (word : IsWord s.text) (means : meaning s.text = s)
    (ht : Spelled meaning t cs) (h : s.text.toList ++ (brackets n ++ r) = cs ++ r')
    (hr : Follows (arrays n s) r) (hr' : Follows t r') : arrays n s = t ∧ r = r' := by
  have hclosed : Closed (brackets n ++ r) := hr.closed n
  cases ht with
  | @named t n' _ word' means' =>
    rw [List.append_assoc] at h
    obtain ⟨hname, hrest⟩ := word_inj word word' hclosed.not_word (hr'.closed n').not_word h
    obtain rfl : s = t := by rw [← means, ← means', hname]
    obtain ⟨rfl, hend⟩ := brackets_inj hr.ne_bracket hr'.ne_bracket hrest
    exact ⟨rfl, hend⟩
  | generic n' word' _ =>
    rw [List.append_assoc] at h
    obtain ⟨-, hrest⟩ := word_inj word word' hclosed.not_word (not_word_of_cons (by decide)) h
    rw [hrest] at hclosed
    exact absurd hclosed (not_closed_of_cons (.inl rfl))
  | enclosed n' _ => exact absurd h (word_ne_paren word)
  | function _ _ =>
    obtain ⟨-, hrest⟩ := word_inj word isWord_fn hclosed.not_word (not_word_of_cons (by decide)) h
    rw [hrest] at hclosed
    exact absurd hclosed (not_closed_of_cons (.inr rfl))

/-- A generic struct with its arguments, or an array of such. -/
theorem generic_inj {name : String} {args : List Ty} {n : Nat} (word : IsWord name)
    (hargs : ∀ a ∈ args, a.Readable meaning ∧ Told meaning a) (ht : Spelled meaning t cs)
    (h : name.toList ++ ('<' :: (listed args ++ '>' :: (brackets n ++ r))) = cs ++ r')
    (hr : Follows (arrays n (generic name args)) r) (hr' : Follows t r') :
    arrays n (generic name args) = t ∧ r = r' := by
  have hangle : ∀ d ∈ ('<' :: (listed args ++ '>' :: (brackets n ++ r))).head?,
      Text.isWordChar d = false := not_word_of_cons (by decide)
  cases ht with
  | named n' _ word' _ =>
    have hclosed : Closed (brackets n' ++ r') := hr'.closed n'
    rw [List.append_assoc] at h
    obtain ⟨-, hrest⟩ := word_inj word word' hangle hclosed.not_word h
    rw [← hrest] at hclosed
    exact absurd hclosed (not_closed_of_cons (.inl rfl))
  | @generic name' args' n' word' hargs' =>
    simp only [List.append_assoc, List.cons_append] at h
    obtain ⟨rfl, hlist⟩ := word_inj word word' hangle (not_word_of_cons (by decide)) h
    obtain ⟨rfl, hrest⟩ := listed_inj (.inr rfl) hargs hargs' (List.cons.inj hlist).2
    obtain ⟨rfl, hend⟩ := brackets_inj hr.ne_bracket hr'.ne_bracket hrest
    exact ⟨rfl, hend⟩
  | enclosed n' _ => exact absurd h (word_ne_paren word)
  | function _ _ =>
    obtain ⟨-, hrest⟩ := word_inj word isWord_fn hangle (not_word_of_cons (by decide)) h
    cases (List.cons.inj hrest).1

/-- A type in parentheses with brackets behind them. -/
theorem enclosed_inj {s : Ty} {n : Nat} (hs : Told meaning s) (ht : Spelled meaning t cs)
    (h : '(' :: (s.text.toList ++ ')' :: (brackets (n + 1) ++ r)) = cs ++ r')
    (hr : Follows (arrays (n + 1) s) r) (hr' : Follows t r') :
    arrays (n + 1) s = t ∧ r = r' := by
  have hstops (r : List Char) : Stops (')' :: r) := by
    intro c hc
    cases hc
    exact .inr (.inl rfl)
  cases ht with
  | named n' _ word' _ =>
    rw [List.append_assoc] at h
    exact absurd h.symm (word_ne_paren word')
  | generic n' word' _ =>
    rw [List.append_assoc] at h
    exact absurd h.symm (word_ne_paren word')
  | @enclosed t n' hread =>
    simp only [List.append_assoc, List.cons_append, List.cons.injEq, true_and] at h
    obtain ⟨rfl, hrest⟩ := hs t _ _ hread h (hstops _) (hstops _)
    obtain ⟨hn, hrest⟩ := brackets_inj hr.ne_bracket hr'.ne_bracket (List.cons.inj hrest).2
    exact ⟨by rw [hn], hrest⟩
  | function _ _ => cases (List.cons.inj h).1

/-- The result of a function, where nothing that could belong to it follows. -/
theorem given_inj {params params' : List Ty} {result result' : Option Ty}
    (hs : ∀ x ∈ result, Told meaning x) (ht : ∀ x ∈ result', x.Readable meaning)
    (h : given result ++ r = given result' ++ r') (hr : Follows (.function params result) r)
    (hr' : Follows (.function params' result') r') : result = result' ∧ r = r' := by
  have hdash {params : List Ty} {result : Option Ty} {x : List Char} :
      ¬ Follows (.function params result) (' ' :: '-' :: x) := by
    rintro (h | ⟨-, _, h⟩)
    · simpa using h ' ' rfl
    · simp at h
  cases result with
  | none =>
    cases result' with
    | none => exact ⟨rfl, h⟩
    | some x =>
      obtain rfl : r = ' ' :: '-' :: '>' :: ' ' :: (x.text.toList ++ r') := h
      exact absurd hr hdash
  | some x =>
    cases result' with
    | none =>
      obtain rfl : ' ' :: '-' :: '>' :: ' ' :: (x.text.toList ++ r) = r' := h
      exact absurd hr' hdash
    | some x' =>
      have hstop : Stops r := hr.resolve_right fun hopen => by simp [hasResult] at hopen
      have hstop' : Stops r' := hr'.resolve_right fun hopen => by simp [hasResult] at hopen
      simp only [given, List.cons_append, List.cons.injEq, true_and] at h
      obtain ⟨rfl, hrest⟩ := hs x rfl x' r r' (ht x' rfl) h hstop hstop'
      exact ⟨rfl, hrest⟩

theorem function_inj {params : List Ty} {result : Option Ty}
    (hp : ∀ p ∈ params, p.Readable meaning ∧ Told meaning p) (hs : ∀ x ∈ result, Told meaning x)
    (ht : Spelled meaning t cs)
    (h : 'f' :: 'n' :: '(' :: (listed params ++ ')' :: (given result ++ r)) = cs ++ r')
    (hr : Follows (.function params result) r) (hr' : Follows t r') :
    function params result = t ∧ r = r' := by
  have hparen : ∀ d ∈ ('(' :: (listed params ++ ')' :: (given result ++ r))).head?,
      Text.isWordChar d = false := not_word_of_cons (by decide)
  cases ht with
  | named n' _ word' _ =>
    have hclosed : Closed (brackets n' ++ r') := hr'.closed n'
    rw [List.append_assoc] at h
    obtain ⟨-, hrest⟩ := word_inj isWord_fn word' hparen hclosed.not_word h
    rw [← hrest] at hclosed
    exact absurd hclosed (not_closed_of_cons (.inr rfl))
  | generic n' word' _ =>
    rw [List.append_assoc] at h
    obtain ⟨-, hrest⟩ := word_inj isWord_fn word' hparen (not_word_of_cons (by decide)) h
    cases (List.cons.inj hrest).1
  | enclosed n' _ => cases (List.cons.inj h).1
  | @function params' result' hp' hr'' =>
    simp only [List.append_assoc, List.cons_append, List.cons.injEq, true_and] at h
    obtain ⟨rfl, hrest⟩ := listed_inj (.inl rfl) hp hp' h
    obtain ⟨rfl, hend⟩ := given_inj hs hr'' hrest hr hr'
    exact ⟨rfl, hend⟩

/-- A type that is not a union, and what stands behind it, can be told from its text, if that holds of
all smaller types. -/
theorem spelled_inj {s : Ty} {cs' : List Char} (hs : Spelled meaning s cs')
    (ih : ∀ p : Ty, sizeOf p < sizeOf s → p.Readable meaning → Told meaning p)
    (ht : Spelled meaning t cs) (h : cs' ++ r = cs ++ r') (hr : Follows s r) (hr' : Follows t r') :
    s = t ∧ r = r' := by
  cases hs with
  | named n _ word means =>
    rw [List.append_assoc] at h
    exact named_inj word means ht h hr hr'
  | @generic name args n word hargs =>
    simp only [List.append_assoc, List.cons_append] at h
    refine generic_inj word (fun a ha => ⟨hargs a ha, ih a ?_ (hargs a ha)⟩) ht h hr hr'
    have hlt := List.sizeOf_lt_of_mem ha
    have hle := sizeOf_arrays n (generic name args)
    simp only [generic.sizeOf_spec] at hle
    omega
  | @enclosed s n hread =>
    simp only [List.append_assoc, List.cons_append] at h
    have hle := sizeOf_arrays (n + 1) s
    exact enclosed_inj (ih s (by omega) hread) ht h hr hr'
  | @function params result hp hres =>
    simp only [List.append_assoc, List.cons_append] at h
    refine function_inj (fun p hmem => ⟨hp p hmem, ih p ?_ (hp p hmem)⟩)
      (fun x hx => ih x ?_ (hres x hx)) ht h hr hr'
    · have hlt := List.sizeOf_lt_of_mem hmem
      simp only [function.sizeOf_spec]
      omega
    · cases hx
      simp only [function.sizeOf_spec, Option.some.sizeOf_spec]
      omega

end

/-! ### Unions -/

/-- A type that is not a union can be told from its text where a bar may follow. -/
def ToldAmong (meaning : String → Ty) (s : Ty) : Prop :=
  ∀ t r r', t.Readable meaning → t.isUnion = false → s.text.toList ++ r = t.text.toList ++ r' →
    Follows s r → Follows t r' → s = t ∧ r = r'

section

variable {r r' : List Char}

/-- What stands behind a member of a union: the members after it, each behind a bar. -/
theorem follows_bar {m : Ty} {ms : List Ty} (h : ∀ x ∈ (m :: ms).dropLast, x.hasResult = false)
    (hr : Stops r) : Follows m (behind bar ms ++ r) := by
  cases ms with
  | nil => exact .inl hr
  | cons n ns => exact .inr ⟨h m List.mem_cons_self, _, rfl⟩

theorem not_stops_bar {m : Ty} {ms : List Ty} : ¬ Stops (behind bar (m :: ms) ++ r) := by
  intro h
  simpa using h ' ' rfl

/-- The members of a union from some place on can be told from their texts. -/
theorem members_inj (hr : Stops r) (hr' : Stops r') {m n : Ty} {ms ns : List Ty}
    (hm : ∀ x ∈ (m :: ms).dropLast, x.hasResult = false)
    (hn : ∀ x ∈ (n :: ns).dropLast, x.hasResult = false)
    (htold : ∀ x ∈ m :: ms, ToldAmong meaning x)
    (hread : ∀ x ∈ n :: ns, x.Readable meaning ∧ x.isUnion = false)
    (h : m.text.toList ++ (behind bar ms ++ r) = n.text.toList ++ (behind bar ns ++ r')) :
    m :: ms = n :: ns ∧ r = r' := by
  induction ms generalizing m n ns with
  | nil =>
    obtain ⟨hread, hu⟩ := hread n List.mem_cons_self
    obtain ⟨rfl, hrest⟩ := htold m List.mem_cons_self n _ _ hread hu h (follows_bar hm hr)
      (follows_bar hn hr')
    cases ns with
    | nil => exact ⟨rfl, hrest⟩
    | cons n' ns =>
      rw [show behind bar [] ++ r = r from rfl] at hrest
      -- one union ends here and the other goes on with a bar
      exact absurd (hrest ▸ hr) not_stops_bar
  | cons m' ms ih =>
    obtain ⟨hread', hu⟩ := hread n List.mem_cons_self
    obtain ⟨rfl, hrest⟩ := htold m List.mem_cons_self n _ _ hread' hu h (follows_bar hm hr)
      (follows_bar hn hr')
    cases ns with
    | nil =>
      rw [show behind bar [] ++ r' = r' from rfl] at hrest
      exact absurd (hrest ▸ hr') not_stops_bar
    | cons n' ns =>
      simp only [behind, List.flatMap_cons, List.append_assoc, List.append_cancel_left_eq] at hrest
      obtain ⟨hmembers, hend⟩ := ih (fun x hx => hm x (List.mem_cons_of_mem _ hx))
        (fun x hx => hn x (List.mem_cons_of_mem _ hx))
        (fun x hx => htold x (List.mem_cons_of_mem _ hx))
        (fun x hx => hread x (List.mem_cons_of_mem _ hx)) hrest
      exact ⟨by rw [hmembers], hend⟩

end

theorem sizeOf_parts_le {s m : Ty} (h : m ∈ s.parts) : sizeOf m ≤ sizeOf s := by
  cases hu : s.isUnion with
  | false =>
    rw [parts_of_not_union hu, List.mem_singleton] at h
    exact Nat.le_of_eq (congrArg sizeOf h)
  | true =>
    cases s with
    | union ms =>
      have hlt : sizeOf m < sizeOf ms := List.sizeOf_lt_of_mem h
      rw [union.sizeOf_spec]
      omega
    | _ => cases hu

/-- A readable type, and what stands behind it, can be told from its text. -/
theorem Readable.told {s : Ty} (hs : s.Readable meaning) : Told meaning s := by
  induction hn : sizeOf s using Nat.strongRecOn generalizing s with
  | _ size ih =>
    subst hn
    intro t r r' ht h hr hr'
    obtain ⟨m, ms, hparts⟩ := hs.parts_cons
    obtain ⟨n, ns, hparts'⟩ := ht.parts_cons
    have hparts_s := hs.of_parts
    have hparts_t := ht.of_parts
    rw [text_eq_parts s, text_eq_parts t, hparts, hparts', intercalate_cons, intercalate_cons,
      List.append_assoc, List.append_assoc] at h
    -- a member is no larger than the type, and what is smaller is told from its text already
    have htold : ∀ x ∈ m :: ms, ToldAmong meaning x := by
      intro x hx t r r' ht hu h hr hr'
      rw [← hparts] at hx
      obtain ⟨hread, hux⟩ := hparts_s.1 x hx
      have hle : sizeOf x ≤ sizeOf s := sizeOf_parts_le hx
      exact spelled_inj (hread.spelled hux)
        (fun p hlt hp => ih (sizeOf p) (Nat.lt_of_lt_of_le hlt hle) hp rfl) (ht.spelled hu) h hr hr'
    rw [hparts] at hparts_s
    rw [hparts'] at hparts_t
    obtain ⟨hmembers, hend⟩ := members_inj hr hr' hparts_s.2 hparts_t.2 htold hparts_t.1 h
    exact ⟨hs.eq_of_parts ht (by rw [hparts, hparts', hmembers]), hend⟩

/-- Readable types with the same text are the same. -/
theorem Readable.text_inj {s t : Ty} (hs : s.Readable meaning) (ht : t.Readable meaning)
    (h : s.text = t.text) : s = t :=
  (hs.told t [] [] ht (by rw [h]) nofun nofun).1

end

end Ty

end Sable
