import Sable.Eval
import Sable.Proofs.Templates.Reading

/-!
# What a template shows

`Piece.displayed`: plain text as written, for each expression the text of its value right after its
evaluation (`Shows`), and for each name the text of its value after all expressions. A literal shows
this unless a plain text spells the `placeholder` of one of its expressions.
-/

namespace Sable

/-! ### Placeholders -/

theorem toList_placeholder (k : Nat) :
    (placeholder k).toList = "#expr(".toList ++ (Nat.toDigits 10 k ++ [')']) := by
  show ("#expr(" ++ Nat.repr k ++ ")").toList = _
  rw [String.toList_append, String.toList_append, Nat.toList_repr, List.append_assoc]
  rfl

/-- A placeholder ends where its number does. -/
theorem eq_of_placeholder_starts {i k : Nat} {rest : List Char}
    (h : (placeholder i).toList <+: (placeholder k).toList ++ rest) : i = k := by
  have hdigits (k : Nat) (rest : List Char) :
      (Nat.toDigits 10 k ++ ')' :: rest).takeWhile Char.isDigit = Nat.toDigits 10 k := by
    have hall : ∀ c ∈ Nat.toDigits 10 k, c.isDigit := fun c hc =>
      Nat.isDigit_of_mem_toDigits (by decide) (by decide) hc
    rw [List.takeWhile_append_of_pos hall, List.takeWhile_cons_of_neg (by decide), List.append_nil]
  rw [toList_placeholder, toList_placeholder, List.append_assoc, List.prefix_append_right_inj,
    List.append_assoc] at h
  obtain ⟨ys, hys⟩ := h
  have heq : Nat.toDigits 10 i = Nat.toDigits 10 k := by
    rw [← hdigits i ys, ← hdigits k rest]
    rw [List.append_assoc] at hys
    exact congrArg (List.takeWhile Char.isDigit) hys
  have hnumber := congrArg (Nat.ofDigitChars 10 · 0) heq
  simpa only [Nat.ofDigitChars_ten_toDigits] using hnumber

/-- A placeholder is a hash sign and characters that are neither this nor a dollar sign. -/
theorem placeholder_chars (k : Nat) : ∃ tail, (placeholder k).toList = '#' :: tail ∧
    ∀ c ∈ tail, c ≠ '#' ∧ c ≠ '$' := by
  rw [toList_placeholder]
  refine ⟨['e', 'x', 'p', 'r', '('] ++ (Nat.toDigits 10 k ++ [')']), rfl, fun c hc => ?_⟩
  have hword : ∀ c ∈ ['e', 'x', 'p', 'r', '('], c ≠ '#' ∧ c ≠ '$' := by simp
  rcases List.mem_append.1 hc with hc | hc
  · exact hword c hc
  rcases List.mem_append.1 hc with hc | hc
  · have hdigit := Nat.isDigit_of_mem_toDigits (by decide) (by decide) hc
    constructor <;> rintro rfl <;> revert hdigit <;> decide
  · rw [List.mem_singleton.1 hc]
    decide

theorem placeholder_ne_nil (k : Nat) : (placeholder k).toList ≠ [] := by
  obtain ⟨tail, htail, -⟩ := placeholder_chars k
  rw [htail]
  exact List.cons_ne_nil _ _

namespace Template

variable {holes : List (List Char × List Char)} {cs : List Char}

theorem hole?_eq_none (h : ∀ p ∈ holes, ¬ p.1 <+: cs) : hole? cs holes = none := by
  induction holes with
  | nil => rfl
  | cons p holes ih =>
    have hp : ¬ (p.1.isPrefixOf cs ∧ p.1 ≠ []) := fun hp =>
      h p List.mem_cons_self (List.isPrefixOf_iff_prefix.1 hp.1)
    rw [hole?, if_neg hp, ih fun q hq => h q (.tail _ hq)]

theorem hole?_append {before after : List (List Char × List Char)} {key shown rest : List Char}
    (hkey : key ≠ []) (h : ∀ p ∈ before, ¬ p.1 <+: key ++ rest) :
    hole? (key ++ rest) (before ++ (key, shown) :: after) = some (shown, rest) := by
  induction before with
  | nil =>
    rw [List.nil_append, hole?, if_pos ⟨List.isPrefixOf_iff_prefix.2 (List.prefix_append _ _), hkey⟩,
      List.drop_left]
  | cons p before ih =>
    have hp : ¬ (p.1.isPrefixOf (key ++ rest) ∧ p.1 ≠ []) := fun hp =>
      h p List.mem_cons_self (List.isPrefixOf_iff_prefix.1 hp.1)
    rw [List.cons_append, hole?, if_neg hp, ih fun q hq => h q (.tail _ hq)]

theorem mem_keyed {shown : List String} {p : List Char × List Char} (h : p ∈ keyed shown) :
    ∃ k < shown.length, p.1 = (placeholder k).toList := by
  obtain ⟨k, hk, rfl⟩ := List.mem_mapIdx.1 h
  exact ⟨k, hk, rfl⟩

theorem keyed_append (before after : List String) (text : String) :
    ∃ rest, keyed (before ++ text :: after) =
      keyed before ++ ((placeholder before.length).toList, text.toList) :: rest := by
  rw [keyed, List.mapIdx_append, List.mapIdx_cons, Nat.zero_add]
  exact ⟨_, rfl⟩

theorem hole?_dollar (shown : List String) : hole? ('$' :: cs) (keyed shown) = none := by
  refine hole?_eq_none fun p hp hstarts => ?_
  obtain ⟨k, -, hkey⟩ := mem_keyed hp
  obtain ⟨tail, htail, -⟩ := placeholder_chars k
  rw [hkey, htail] at hstarts
  exact absurd (List.cons_prefix_cons.1 hstarts).1 (by decide)

/-- A placeholder is not taken for one with a smaller number. -/
theorem hole?_placeholder (before after : List String) (text : String) :
    hole? ((placeholder before.length).toList ++ cs) (keyed (before ++ text :: after)) =
      some (text.toList, cs) := by
  obtain ⟨others, hkeyed⟩ := keyed_append before after text
  rw [hkeyed]
  refine hole?_append (placeholder_ne_nil _) fun p hp hstarts => ?_
  obtain ⟨k, hk, hkey⟩ := mem_keyed hp
  rw [hkey] at hstarts
  exact absurd (eq_of_placeholder_starts hstarts) (Nat.ne_of_lt hk)

/-! ### Steps of filling -/

variable {names : List String} {value : String → Except Fault String} {shown rest filled : List Char}

theorem fill_hole (hcs : cs ≠ []) (h : hole? cs holes = some (shown, rest))
    (hrest : fill holes names value rest = .ok filled) :
    fill holes names value cs = .ok (shown ++ filled) := by
  obtain ⟨c, tail, rfl⟩ := List.exists_cons_of_ne_nil hcs
  rw [fill]
  split <;> rename_i heq <;> rw [h] at heq <;> cases heq
  rw [hrest]
  rfl

theorem fill_reference {word : List Char} {text : String}
    (hnone : hole? ('$' :: (word ++ rest)) holes = none)
    (hword : ∀ d ∈ word, Text.isWordChar d) (hnext : ∀ d ∈ rest.head?, Text.isWordChar d = false)
    (hname : String.ofList word ∈ names) (hvalue : value (String.ofList word) = .ok text)
    (hrest : fill holes names value rest = .ok filled) :
    fill holes names value ('$' :: (word ++ rest)) = .ok (text.toList ++ filled) := by
  obtain ⟨htake, hdrop⟩ := Piece.word_ends hword hnext
  rw [fill]
  split <;> rename_i heq <;> rw [hnone] at heq <;> cases heq
  rw [htake, if_pos ⟨rfl, hname⟩, hvalue, hdrop, hrest]
  rfl

theorem fill_plain {c : Char} (hnone : hole? (c :: rest) holes = none)
    (hc : c = '$' → String.ofList (rest.takeWhile Text.isWordChar) ∉ names)
    (hrest : fill holes names value rest = .ok filled) :
    fill holes names value (c :: rest) = .ok (c :: filled) := by
  rw [fill]
  split <;> rename_i heq <;> rw [hnone] at heq <;> cases heq
  rw [if_neg fun h => hc h.1 h.2, hrest]
  rfl

/-- A text without placeholders and references stays as it is. -/
theorem fill_nothing : ∀ cs : List Char, fill [] [] value cs = .ok cs
  | [] => by rw [fill]
  | _ :: rest => fill_plain rfl (fun _ => List.not_mem_nil) (fill_nothing rest)

end Template

/-! ### Parts that are shown -/

namespace Piece

/-- What the parts of a literal show, given the texts for its expressions in order and a text for each
name. -/
def displayed (value : String → String) : List Piece → List String → List Char
  | [], _ => []
  | plain c :: rest, shown => c :: displayed value rest shown
  | reference name :: rest, shown => (value name).toList ++ displayed value rest shown
  | hole _ :: rest, text :: shown => text.toList ++ displayed value rest shown
  | hole _ :: rest, [] => displayed value rest []
  | openHole text :: rest, shown => text.toList ++ displayed value rest shown

/-- Characters of a template that are neither a hash nor a dollar sign are plain text. -/
theorem Legible.plain_of_starts {pieces : List Piece} {holes : List Expr} {k : Nat} {cs : List Char}
    (h : Legible pieces holes) (hcs : ∀ c ∈ cs, c ≠ '#' ∧ c ≠ '$') (hstarts : cs <+: marked k pieces) :
    cs.map Piece.plain <+: pieces := by
  induction h generalizing cs with
  | nil =>
    rw [List.prefix_nil.1 hstarts]
    exact List.nil_prefix
  | @plain c rest holes hc _ ih =>
    cases cs with
    | nil => exact List.nil_prefix
    | cons d cs =>
      obtain ⟨rfl, hrest⟩ := List.cons_prefix_cons.1 hstarts
      exact List.cons_prefix_cons.2 ⟨rfl, ih (fun c hc => hcs c (.tail _ hc)) hrest⟩
  | reference =>
    cases cs with
    | nil => exact List.nil_prefix
    | cons d cs => exact absurd (List.cons_prefix_cons.1 hstarts).1 (hcs d List.mem_cons_self).2
  | hole =>
    cases cs with
    | nil => exact List.nil_prefix
    | cons d cs =>
      obtain ⟨tail, htail, -⟩ := placeholder_chars k
      rw [marked, htail] at hstarts
      exact absurd (List.cons_prefix_cons.1 hstarts).1 (hcs d List.mem_cons_self).1

/-- What does not continue a word in the source does not continue it in the template. -/
theorem Legible.head_marked {pieces : List Piece} {holes : List Expr} (h : Legible pieces holes)
    (hnext : ∀ d ∈ (pieces.flatMap written).head?, Text.isWordChar d = false) (k : Nat) :
    ∀ d ∈ (marked k pieces).head?, Text.isWordChar d = false := by
  cases h with
  | nil => nofun
  | plain hc _ => exact hnext
  | reference hc hword _ _ => exact hnext
  | hole hbody _ _ =>
    obtain ⟨tail, htail, -⟩ := placeholder_chars k
    intro d hd
    rw [marked, htail] at hd
    cases hd
    decide

/-- Where plain text stands there is no placeholder, unless the plain text spells it. -/
theorem Legible.hole?_plain {c : Char} {rest : List Piece} {holes : List Expr} {shown : List String}
    (h : Legible rest holes)
    (hmark : ∀ k < shown.length, ¬ (placeholder k).toList.map Piece.plain <:+: .plain c :: rest)
    (k : Nat) : Template.hole? (c :: marked k rest) (Template.keyed shown) = none := by
  refine Template.hole?_eq_none fun p hp hstarts => ?_
  obtain ⟨i, hi, hkey⟩ := Template.mem_keyed hp
  obtain ⟨tail, htail, hchars⟩ := placeholder_chars i
  rw [hkey, htail] at hstarts
  obtain ⟨hhash, hplain⟩ := List.cons_prefix_cons.1 hstarts
  refine hmark i hi ?_
  rw [htail, List.map_cons, hhash]
  exact (List.cons_prefix_cons.2 ⟨rfl, h.plain_of_starts hchars hplain⟩).isInfix

/-- The template of legible parts is filled with what they show. -/
theorem Legible.fill {pieces : List Piece} {holes : List Expr} {names : List String}
    {value : String → Except Fault String} {text : String → String} (h : Legible pieces holes)
    (hnames : ∀ name, Piece.reference name ∈ pieces → name ∈ names ∧ value name = .ok (text name))
    {before shown : List String} (hlength : shown.length = holes.length)
    (hmark : ∀ k < (before ++ shown).length,
      ¬ (placeholder k).toList.map Piece.plain <:+: pieces) :
    Template.fill (Template.keyed (before ++ shown)) names value (marked before.length pieces) =
      .ok (displayed text pieces shown) := by
  -- filling looks up the texts of all expressions at every part, so the ones already shown stay
  induction h generalizing before shown with
  | nil =>
    rw [marked, Template.fill]
    rfl
  | @plain c rest holes hc hrest ih =>
    refine Template.fill_plain (hrest.hole?_plain hmark _) (fun h => absurd h hc) (ih ?_ hlength ?_)
    · exact fun name hname => hnames name (.tail _ hname)
    · exact fun k hk hinfix => hmark k hk (List.infix_cons hinfix)
  | @reference c word rest holes hc hword hnext hrest ih =>
    have hchars : ∀ d ∈ c :: word, Text.isWordChar d :=
      List.forall_mem_cons.2 ⟨Text.isWordChar_of_isWordStart hc, hword⟩
    obtain ⟨hmem, hvalue⟩ := hnames _ List.mem_cons_self
    rw [marked, String.toList_ofList]
    refine Template.fill_reference (Template.hole?_dollar _) hchars (hrest.head_marked hnext _) hmem
      hvalue (ih ?_ hlength ?_)
    · exact fun name hname => hnames name (.tail _ hname)
    · exact fun k hk hinfix => hmark k hk (List.infix_cons hinfix)
  | @hole body e rest holes hbody hbraces hrest ih =>
    cases shown with
    | nil => cases hlength
    | cons first shown =>
      have hsame : before ++ first :: shown = (before ++ [first]) ++ shown := by simp
      have hfilled : Template.fill (Template.keyed ((before ++ [first]) ++ shown)) names value
          (marked (before ++ [first]).length rest) = .ok (displayed text rest shown) := by
        refine ih (fun name hname => hnames name (.tail _ hname)) (Nat.succ.inj hlength) ?_
        rw [← hsame]
        exact fun k hk hinfix => hmark k hk (List.infix_cons hinfix)
      rw [← hsame, List.length_append, List.length_singleton] at hfilled
      rw [marked]
      exact Template.fill_hole (List.append_ne_nil_of_left_ne_nil (placeholder_ne_nil _) _)
        (Template.hole?_placeholder before shown first) hfilled

end Piece

/-! ### Literals -/

section Literals

variable {ω : Type}

/-- The expressions are evaluated one after the other, and the text for each is what its value shows
right after it. -/
inductive Shows (eval : Expr → Eval ω Value) :
    List Expr → Machine → ω → List String → Machine → ω → Prop
  | nil {m : Machine} {w : ω} : Shows eval [] m w [] m w
  | cons {e : Expr} {rest : List Expr} {m m₁ m₂ : Machine} {w w₁ w₂ : ω} {v : Value}
      {shown : List String} (h : eval e m w = .done v m₁ w₁) (hrest : Shows eval rest m₁ w₁ shown m₂ w₂) :
      Shows eval (e :: rest) m w (m₁.store.render v :: shown) m₂ w₂

theorem Shows.length_eq {eval : Expr → Eval ω Value} {holes : List Expr} {m m' : Machine} {w w' : ω}
    {shown : List String} (h : Shows eval holes m w shown m' w') : shown.length = holes.length := by
  induction h with
  | nil => rfl
  | cons _ _ ih => rw [List.length_cons, ih, List.length_cons]

theorem Shows.shown_eq {inner : Inner ω} {env : Env} {holes : List Expr} {m m' : Machine} {w w' : ω}
    {shown : List String} (h : Shows (inner.expr env) holes m w shown m' w') :
    inner.shown env holes m w = .done shown m' w' := by
  induction h with
  | nil => rfl
  | @cons e rest m m₁ m₂ w w₁ w₂ v shown h _ ih =>
    have hask : (Eval.ask (·.render v) : Eval ω String) m₁ w₁ =
        .done (m₁.store.render v) m₁ w₁ := rfl
    rw [Inner.shown, Eval.bind_done h, Eval.bind_done hask, Eval.bind_done ih]
    rfl

/-- The rule for templates gives what the parts show. -/
theorem Piece.Legible.template [Observer ω] {pieces : List Piece} {holes : List Expr} {names : List String}
    {inner : Inner ω} {env : Env} {m m' : Machine} {w w' : ω} {shown : List String}
    {value : String → Value} (h : Legible pieces holes)
    (hnames : ∀ name, Piece.reference name ∈ pieces → name ∈ names)
    (hmark : ∀ k < holes.length, ¬ (placeholder k).toList.map Piece.plain <:+: pieces)
    (hshown : Shows (inner.expr env) holes m w shown m' w')
    (hvalue : ∀ name, Piece.reference name ∈ pieces → m'.store.lookup env name = .ok (value name)) :
    inner.template env (String.ofList (marked 0 pieces)) names holes m w =
      .done (.text (String.ofList (displayed (fun name => m'.store.render (value name)) pieces shown)))
        m' w' := by
  have hlength := hshown.length_eq
  have hfill : Template.fill (Template.keyed ([] ++ shown)) names
      (fun name => (m'.store.lookup env name).map m'.store.render) (marked 0 pieces) =
        .ok (displayed (fun name => m'.store.render (value name)) pieces shown) := by
    refine h.fill (fun name hname => ⟨hnames name hname, ?_⟩) hlength ?_
    · rw [hvalue name hname]
      rfl
    · rwa [List.nil_append, hlength]
  rw [List.nil_append] at hfill
  unfold Inner.template
  by_cases hplain : names.isEmpty && holes.isEmpty
  · -- nothing is filled in, and nothing is evaluated
    rw [if_pos hplain]
    obtain ⟨hnames, hholes⟩ := Bool.and_eq_true_iff.1 hplain
    obtain rfl := List.isEmpty_iff.1 hnames
    obtain rfl := List.isEmpty_iff.1 hholes
    cases hshown
    rw [show Template.keyed [] = [] from rfl, Template.fill_nothing] at hfill
    rw [Except.ok.inj hfill]
    rfl
  · have hquery : (Eval.query fun store => Template.fill (Template.keyed shown) names
        (fun name => (store.lookup env name).map store.render)
        (String.ofList (marked 0 pieces)).toList : Eval ω (List Char)) m' w' =
          .done (displayed (fun name => m'.store.render (value name)) pieces shown) m' w' := by
      rw [Eval.query, String.toList_ofList, hfill]
    rw [if_neg hplain, Eval.bind_done hshown.shown_eq, Eval.bind_done hquery]
    rfl

/-- A literal means what its parts say. It can be read, and where its expressions can be evaluated in
order and its names then be found, it is the text of the plain characters, of what the values of the
expressions show and of what the names show behind them. -/
theorem readLiteral_displays {pieces : List Piece} {holes : List Expr}
    (h : Piece.Legible pieces holes)
    (hmark : ∀ k < holes.length, ¬ (placeholder k).toList.map Piece.plain <:+: pieces) (span : Span) :
    ∃ literal, readLiteral (Piece.source pieces) span = .ok literal ∧
      ∀ {ω : Type} [Observer ω] (cfg : Config) (fuel : Nat) (env : Env) {m m' : Machine} {w w' : ω}
        {shown : List String} (value : String → Value),
        Shows (Eval.expr cfg fuel env) holes m w shown m' w' →
        (∀ name, .reference name ∈ pieces → m'.store.lookup env name = .ok (value name)) →
        Eval.expr cfg (fuel + 1) env literal m w =
          .done (.text (String.ofList
            (Piece.displayed (fun name => m'.store.render (value name)) pieces shown))) m' w' := by
  obtain ⟨names, hread, hnames⟩ := h.readLiteral span
  refine ⟨_, hread, fun cfg fuel env => ?_⟩
  intro m m' w w' shown value hshown hvalue
  exact h.template hnames hmark hshown hvalue

/-- A machine in which the name `x` stands for a text. -/
def singleName : Machine where
  store := { scopes := #[{ vars := [("x", ⟨.text "a", .final, none⟩)] }] }

/-- A name, and an expression with braces of its own, which makes an object. -/
def nestedBraces : List Piece :=
  [.reference (String.ofList ['x']), .plain ',', .hole "\x7b v: x \x7d.v", .plain '!']

theorem nestedBraces_displays :
    Piece.source nestedBraces = "$x,$\x7b\x7b v: x \x7d.v\x7d!" ∧
    ∃ literal m', readLiteral (Piece.source nestedBraces) .nowhere = .ok literal ∧
      Eval.expr { file := "main" } 4 ⟨0, []⟩ literal singleName () = .done (.text "a,a!") m' () := by
  have hok : (match Expr.parse "\x7b v: x \x7d.v" with
    | .ok e => match Eval.expr { file := "main" } 3 ⟨0, []⟩ e singleName () with
      | .done v m' _ => match m'.store.lookup ⟨0, []⟩ (String.ofList ['x']) with
        | .ok v' => decide (m'.store.render v = "a" ∧ m'.store.render v' = "a")
        | .error _ => false
      | _ => false
    | .error _ => false) = true := by decide +kernel
  split at hok
  · rename_i e hparse
    split at hok
    · rename_i v m' w' heval
      split at hok
      · rename_i v' hlookup
        obtain ⟨hv, hv'⟩ := of_decide_eq_true hok
        have hlegible : Piece.Legible nestedBraces [e] :=
          .reference (by decide) (List.forall_mem_nil _) (fun d hd => by cases hd; decide)
            (.plain (by decide) (.hole hparse (by decide) (.plain (by decide) .nil)))
        have hmark : ∀ k < [e].length, ¬ (placeholder k).toList.map Piece.plain <:+: nestedBraces := by
          intro k hk hinfix
          obtain rfl : k = 0 := Nat.lt_one_iff.1 hk
          exact absurd hinfix.length_le (by decide)
        obtain ⟨literal, hread, hshow⟩ := readLiteral_displays hlegible hmark .nowhere
        refine ⟨by decide, literal, m', hread, ?_⟩
        refine (hshow _ _ _ (fun _ => v') (.cons heval .nil) fun name hname => ?_).trans ?_
        · have hx : name = String.ofList ['x'] := by simpa [nestedBraces] using hname
          rw [hx, hlookup]
        · show Outcome.done (Value.text (String.ofList ((m'.store.render v').toList ++
            ',' :: ((m'.store.render v).toList ++ ['!'])))) m' () = _
          rw [hv, hv']
          rfl
      · cases hok
    · cases hok
  · cases hok

/-- A plain text that spells the placeholder of the expression behind it. -/
def spelledOut : List Piece :=
  "#expr(0) ".toList.map .plain ++ [.hole "x"]

/-- Ends with the given text. -/
def Outcome.gives (text : String) : Outcome Unit Value → Bool
  | .done (.text other) _ _ => text == other
  | _ => false

theorem Outcome.done_of_gives {o : Outcome Unit Value} {text : String} (h : o.gives text = true) :
    ∃ m, o = .done (.text text) m () := by
  unfold Outcome.gives at h
  split at h
  · rename_i m _
    exact ⟨m, by rw [eq_of_beq h]⟩
  · cases h

/-- Plain text is replaced where it spells a placeholder. A brace in a text inside an expression
counts like any other, so that the expression ends too early. -/
theorem literals_misread :
    (Expr.parse "x").isOk ∧ String.ofList (Piece.displayed id spelledOut ["a"]) = "#expr(0) a" ∧
    (∃ literal m', readLiteral (Piece.source spelledOut) .nowhere = .ok literal ∧
      Eval.expr { file := "main" } 2 ⟨0, []⟩ literal singleName () = .done (.text "a a") m' ()) ∧
    (Expr.parse "\"\x7d\"").isOk ∧
    (readLiteral (Piece.source [.hole "\"\x7d\""]) .nowhere).isOk = false := by
  refine ⟨by decide +kernel, by decide, ?_, by decide +kernel, by decide +kernel⟩
  have hok : (readLiteral (Piece.source spelledOut) .nowhere).toOption.any (fun literal =>
      (Eval.expr { file := "main" } 2 ⟨0, []⟩ literal singleName ()).gives "a a") = true := by
    decide +kernel
  obtain ⟨literal, hread, hok⟩ := exists_of_toOption_any hok
  obtain ⟨m', heval⟩ := Outcome.done_of_gives hok
  exact ⟨literal, m', hread, heval⟩

end Literals

end Sable
