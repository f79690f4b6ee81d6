import Sable.Proofs.Joining.Blocks

/-!
# Statements in front of a seam

`Join.CarriesStmt` for every rule of statements. Tests of the tokens ahead hold in front of the seam
only (`Seam.Tests`). The one rule that asks for a semicolon itself, the head of a loop in three parts,
has to read a block behind it.
-/

namespace Sable

open Sable.Parser

namespace Reader

/-! ### The head of a loop -/

/-! ### Parts of statements -/

section Parts

variable {s : Seam} {n b b' : Nat} (hb : n ≤ b) (hb' : n ≤ b')
include hb hb'

theorem agree_expr (objects : Bool) : s.Agree 1 n (expr b objects) (expr b' objects) :=
  Seam.agree_expression (fun _ _ _ => Iff.rfl) objects hb hb'

/-- What may follow a token behind the first of a rule. -/
theorem agree_afterType {k : Kind} (hk : k.IsInner) {m : Nat} (hm : m ≤ n + 1) :
    s.Agree 0 m (after k (typeExpr b)) (after k (typeExpr b')) :=
  .after hk ((Seam.agree_typeExpr hb hb').weak.mono (by omega))

theorem agree_afterExpr {k : Kind} (hk : k.IsInner) (objects : Bool) {m : Nat} (hm : m ≤ n + 1) :
    s.Agree 0 m (after k (expr b objects)) (after k (expr b' objects)) :=
  .after hk ((agree_expr hb hb' objects).weak.mono (by omega))

theorem agree_binding (objects : Bool) (modifier : Modifier) :
    s.Agree 1 n (binding b objects modifier) (binding b' objects modifier) := by
  refine (Seam.Agree.identifier _).bind fun name => ?_
  refine (agree_afterType hb hb' (by decide) (by omega)).bind fun type => ?_
  refine (agree_afterExpr hb hb' (by decide) objects (by omega)).bind fun value => ?_
  exact .ite (.fail _ _) (.pure _)

theorem agree_varDecl (objects : Bool) :
    s.AgreeIn 1 n (varDecl b objects) (varDecl b' objects) := by
  refine Seam.AgreeIn.next.bind fun word => ?_
  have hdecls (isMut : Bool) : s.Agree 0 n (bindings b objects (modifierOf word.kind isMut))
      (bindings b' objects (modifierOf word.kind isMut)) :=
    (Seam.Agree.commaList hb hb' (agree_binding hb hb' objects _).weak).bind fun _ => .pure _
  refine .ite (.accept (by decide) ?_ ?_) ?_
  · exact (hdecls true).mono (by omega)
  · exact (hdecls false).mono (by omega)
  · exact (hdecls false).mono (by omega)

theorem agree_typeParams : s.Agree 0 n (typeParams b) (typeParams b') := by
  have hparam : s.Agree 0 n (typeParam b) (typeParam b') :=
    (Seam.Agree.identifier _).weak.bind fun _ =>
      (agree_afterType hb hb' (by decide) (by omega)).bind fun _ => .pure _
  refine .accept (by decide) ?_ (.pure _)
  refine ((Seam.Agree.commaList hb hb' hparam).mono (Nat.sub_le n 1)).bind fun _ => ?_
  exact (Seam.Agree.expect (by decide)).weak.bind fun _ => .pure _

theorem agree_receiver : s.Agree 0 n (receiver b) (receiver b') := by
  refine .test (Seam.tests_atWord _) (Seam.AgreeIn.weak (i := 1) ?_) (.pure _)
  refine Seam.AgreeIn.next.bind fun name => ?_
  refine (agree_afterType hb hb' (by decide) (by omega)).bind fun _ => ?_
  have hcomma : s.Agree 0 (n - 1) (do let _ ← expect (.symbol .comma); return some name.name)
      (do let _ ← expect (.symbol .comma); return some name.name) :=
    (Seam.Agree.expect (by decide)).weak.bind fun _ => .pure _
  refine .kind (fun k => ?_) fun k hk => ?_
  · exact (Seam.Agree.ite hcomma (.pure _)).inside
  · rw [if_pos (by decide), if_pos (by rintro rfl; exact hk (by decide))]
    exact hcomma

theorem agree_params : s.Agree 0 n (params b) (params b') := by
  have hparam : s.Agree 0 n (param b) (param b') :=
    (Seam.Agree.identifier _).weak.bind fun _ =>
      (agree_afterType hb hb' (by decide) (by omega)).bind fun _ =>
        (agree_afterExpr hb hb' (by decide) true (by omega)).bind fun _ => .pure _
  refine (Seam.Agree.listUntil (by decide) hb hb' hparam).bind fun _ => ?_
  exact (Seam.Agree.expect (by decide)).weak.bind fun _ => .pure _

theorem agree_ret : s.AgreeIn 1 n (ret b) (ret b') := by
  refine Seam.AgreeIn.next.bind fun start => .kind (fun k => ?_) fun k hk m c hm hc => ?_
  · refine Seam.AgreeIn.onSameLine.bind fun near => .ite ?_ (.pure _)
    exact ((agree_expr hb hb' true).weak.mono (by omega)).bind fun _ => .pure _
  · -- at the end of the file and at a semicolon there is no value
    rw [onSameLine_bind, onSameLine_bind]
    obtain rfl | rfl := Kind.not_isInner.1 hk <;> exact .ok _ hc

omit hb hb' in
theorem startsIteration_eq (c : Cursor) : startsIteration c = .ok (decide (c.kindAt 0 = .identifier ∧
    (c.kindAt 1 = .keyword .inWord ∨ c.kindAt 1 = .symbol .comma ∧ c.kindAt 2 = .identifier ∧
      c.kindAt 3 = .keyword .inWord)), c) := by
  simp only [startsIteration, kindAt_bind, ite_run]
  by_cases h0 : c.kindAt 0 = .identifier
  · by_cases h1 : c.kindAt 1 = .keyword .inWord
    · rw [if_pos h0, if_pos h1]
      simp only [h0, h1, true_and, true_or, decide_true]
      rfl
    · rw [if_pos h0, if_neg h1]
      simp only [h0, h1, true_and, false_or]
      rfl
  · rw [if_neg h0]
    simp only [h0, false_and, decide_false]
    rfl

omit hb hb' in
theorem tests_startsIteration : s.Tests startsIteration := by
  intro c
  have hand {A A' B B' : Prop} (h : A' ↔ A) (h' : A → (B' ↔ B)) : A' ∧ B' ↔ A ∧ B := by
    rw [h]
    exact and_congr_right h'
  -- each token is looked at only if the one before it is in front of the seam
  have hstarts : ((s.joined c).kindAt 0 = .identifier ∧ ((s.joined c).kindAt 1 = .keyword .inWord ∨
      (s.joined c).kindAt 1 = .symbol .comma ∧ (s.joined c).kindAt 2 = .identifier ∧
        (s.joined c).kindAt 3 = .keyword .inWord)) ↔ ((s.ended c).kindAt 0 = .identifier ∧
      ((s.ended c).kindAt 1 = .keyword .inWord ∨ (s.ended c).kindAt 1 = .symbol .comma ∧
        (s.ended c).kindAt 2 = .identifier ∧ (s.ended c).kindAt 3 = .keyword .inWord)) := by
    refine hand (Seam.kindAt_joined (by decide) (Nat.zero_le _)) fun h0 => ?_
    have h1 := Seam.lt_of_kindAt (by decide) h0
    refine or_congr (Seam.kindAt_joined (by decide) h1) ?_
    refine hand (Seam.kindAt_joined (by decide) h1) fun h1 => ?_
    have h2 := Seam.lt_of_kindAt (by decide) h1
    refine hand (Seam.kindAt_joined (by decide) h2) fun h2 => ?_
    exact Seam.kindAt_joined (by decide) (Seam.lt_of_kindAt (by decide) h2)
  rw [startsIteration_eq, startsIteration_eq, decide_eq_decide.2 hstarts]
  refine ⟨_, rfl, rfl, fun hyes => ?_⟩
  have hlt := Seam.lt_of_kindAt (by decide) (of_decide_eq_true hyes).1
  exact List.length_pos_iff.1 hlt

omit hb hb' in
theorem startsRange_eq (c : Cursor) : startsRange c = .ok (decide (c.here.isWord "range" ∧
    c.kindAt 1 ∉ [.symbol .openBrace, .indent, .symbol .dot, .symbol .openBracket]), c) := by
  rw [startsRange, kindAt_bind, atWord_bind]
  generalize c.kindAt 1 = k
  generalize c.here.isWord "range" = here
  show Except.ok (decide _, c) = _
  congr 3
  split <;> simp_all

omit hb hb' in
/-- A test of the word in front and of the kind behind it. The kind counts only where there is a word,
and so only up to the seam. -/
theorem tests_wordThen {test : Parser Bool} {word : String} {K : Kind → Prop} [DecidablePred K]
    (hrun : ∀ c, test c = .ok (decide (c.here.isWord word ∧ K (c.kindAt 1)), c))
    (hK : ∀ c : Cursor, 1 ≤ c.rest.length → (K ((s.joined c).kindAt 1) ↔ K ((s.ended c).kindAt 1))) :
    s.Tests test := by
  intro c
  rw [hrun, hrun]
  by_cases hr : c.rest = []
  · rw [Seam.here_ended_nil hr, Seam.here_joined_nil hr,
      Token.isWord_eq_false Seam.finish_not_inner, Token.isWord_eq_false s.next_kind]
    refine ⟨false, ?_, ?_, nofun⟩ <;> simp
  · rw [Seam.here_ended hr, Seam.here_joined hr, decide_eq_decide.2
      (and_congr_right fun _ => hK c (List.length_pos_iff.2 hr))]
    exact ⟨_, rfl, rfl, fun _ => hr⟩

omit hb hb' in
theorem tests_startsRange : s.Tests startsRange :=
  tests_wordThen (K := (· ∉ [.symbol .openBrace, .indent, .symbol .dot, .symbol .openBracket]))
    startsRange_eq fun _ hlen => not_congr (Seam.kindAt_joined_mem (by decide) hlen)

omit hb hb' in
/-- A word that begins a label is followed by its name. -/
theorem tests_startsLabel : s.Tests startsLabel :=
  tests_wordThen (K := (· = .identifier)) startsLabel_eq
    fun _ hlen => Seam.kindAt_joined (by decide) hlen

theorem agree_range : s.Agree 0 n (range b) (range b') := by
  have hcondition {m : Nat} (hm : m ≤ n) : s.Agree 0 m (condition b) (condition b') :=
    (agree_expr hb hb' false).weak.mono hm
  have hstop (start : Expr) (inclusive : Bool) :
      s.AgreeIn 0 n (rangeFrom b start inclusive) (rangeFrom b' start inclusive) := by
    refine Seam.AgreeIn.weak (i := 1) (Seam.AgreeIn.next.bind fun _ => ?_)
    refine (hcondition (Nat.sub_le n 1)).bind fun stop =>
      .test (Seam.tests_atWord _) ?_ (.pure _)
    refine Seam.AgreeIn.weak (i := 1) (Seam.AgreeIn.next.bind fun _ => ?_)
    exact (hcondition (by omega)).bind fun _ => .pure _
  refine (hcondition (Nat.le_refl n)).bind fun start =>
    .test (Seam.tests_atWord _) ?_ (.test (Seam.tests_atWord _) ?_ ?_)
  · exact .test (Seam.tests_atWord _) fun _ => hstop start false
  · exact hstop start true
  · exact fun _ _ _ _ => .error _ _

theorem agree_fieldDecl : s.Agree 1 n (fieldDecl b) (fieldDecl b') := by
  refine (Seam.Agree.identifier _).bind fun name => ?_
  have htype (optional : Bool) : s.Agree 0 n (do
      let _ ← expect (.symbol .colon)
      return ⟨name, ← typeExpr b, optional⟩ : Parser FieldDecl) (do
      let _ ← expect (.symbol .colon)
      return ⟨name, ← typeExpr b', optional⟩) :=
    (Seam.Agree.expect (by decide)).weak.bind fun _ =>
      (Seam.agree_typeExpr hb hb').weak.bind fun _ => .pure _
  exact .accept (by decide) ((htype true).mono (by omega)) ((htype false).mono (by omega))

theorem agree_getterHead : s.AgreeIn 1 n (getterHead b) (getterHead b') := by
  refine Seam.AgreeIn.next.bind fun _ => (Seam.Agree.identifier _).weak.bind fun _ => ?_
  refine (Seam.Agree.expect (by decide)).weak.bind fun _ => ?_
  exact ((Seam.agree_typeExpr hb hb').weak.mono (by omega)).bind fun _ => .pure _

theorem agree_requirement : s.Agree 1 n (requirement b) (requirement b') := by
  refine .accept (by decide) ?_ (.test (Seam.tests_atWord _) ?_ (.unexpected _))
  · refine (Seam.Agree.identifier _).weak.bind fun _ => ?_
    refine (Seam.Agree.expect (by decide)).weak.bind fun _ => ?_
    refine ((agree_receiver hb hb').mono (by omega)).bind fun _ => ?_
    refine ((agree_params hb hb').mono (by omega)).bind fun _ => ?_
    exact (agree_afterType hb hb' (by decide) (by omega)).bind fun _ => .pure _
  · exact (agree_getterHead hb hb').bind fun _ => .pure _

end Parts

/-- The word of a jump and the label on its line. -/
def jumpHead : Parser (Span × Option Name) := do
  let start := (← next).span
  if (← kind) = .identifier ∧ (← onSameLine) then
    return (start, some (← identifier "a loop label"))
  else return (start, none)

theorem jump_eq (make : Nat → Option Name → Span → Stmt) (loops : List Enclosing) :
    jump make loops = (do let head ← jumpHead; jumpTo make loops head.1 head.2) := by
  simp only [jump, jumpHead, bind_assoc]
  congr 1
  funext start
  congr 1
  funext k
  congr 1
  funext near
  split <;> simp only [bind_assoc, pure_bind]

theorem agree_jumpHead {s : Seam} {n : Nat} : s.AgreeIn 1 n jumpHead jumpHead := by
  refine Seam.AgreeIn.next.bind fun start => .ifKindOnLine (by decide) ?_ (.pure _)
  exact ((Seam.Agree.identifier _).weak.bind fun _ => .pure _).inside

end Reader

open Reader Stmt

namespace Join

/-! ### Statements without others inside -/

section Simple

variable {j : Join} {i n b b' : Nat}

theorem carriesIn_simple {p q : Parser Stmt} (h : j.AgreeIn i n p q)
    (hp : Gives (fun s => s.isSimple ∧ s.jump? = none) p) :
    j.CarriesIn i n (fun s ds => ds ⊆ aliases [s]) (renumber j.loops) (liftM p) (liftM q) := by
  intro m o hm ho hr
  refine (CarriesFrom.lift (h m o.cursor hm ho hr) hp).imp fun s ds hs => ?_
  obtain ⟨⟨hsimple, hjump⟩, rfl⟩ := hs
  exact ⟨List.nil_subset _, renumber_of_simple j.loops hsimple hjump⟩

theorem target_shifted (loops : List Enclosing) (label : Option Name) (span : Span) :
    target (j.shifted loops) label span = (target loops label span).map (· + j.loops) := by
  cases loops with
  | nil => cases label <;> rfl
  | cons inner outer =>
    cases label with
    | none => rfl
    | some label =>
      have hfind : (j.shifted (inner :: outer)).find? (·.label == some label.text) =
          ((inner :: outer).find? (·.label == some label.text)).map
            fun loop => ⟨loop.id + j.loops, loop.label⟩ := List.find?_map
      rw [shifted, List.map_cons] at hfind ⊢
      simp only [target]
      rw [hfind]
      cases (inner :: outer).find? (·.label == some label.text) <;> rfl

theorem lift_bind {α β : Type} (p : Parser α) (f : α → Parser β) :
    (liftM (p >>= f) : Reader β) = liftM p >>= fun a => liftM (f a) := by
  funext o
  show onCursor (p >>= f) o = (onCursor p o >>= fun x => onCursor (f x.1) x.2)
  have hrun : (p >>= f) o.cursor = (p o.cursor >>= fun x => f x.1 x.2) := rfl
  rw [onCursor, onCursor, hrun]
  cases p o.cursor <;> rfl

theorem carries_jumpTo {make : Nat → Option Name → Span → Stmt}
    (hmake : ∀ k id label span, renumber k (make id label span) = make (id + k) label span)
    (loops : List Enclosing) (start : Span) (label : Option Name) :
    j.CarriesStmt 0 n (liftM (jumpTo make loops start label))
      (liftM (jumpTo make (j.shifted loops) start label)) := by
  unfold jumpTo
  dsimp only
  rw [target_shifted]
  generalize target loops label _ = r
  cases r with
  | ok id => exact .pure (List.nil_subset _) (hmake _ _ _ _)
  | error e =>
    intro m o _ _ s t ht
    cases ht

theorem carries_jump {make : Nat → Option Name → Span → Stmt}
    (hmake : ∀ k id label span, renumber k (make id label span) = make (id + k) label span)
    (loops : List Enclosing) :
    j.CarriesIn 1 n (fun s ds => ds ⊆ aliases [s]) (renumber j.loops)
      (liftM (jump make loops)) (liftM (jump make (j.shifted loops))) := by
  rw [jump_eq, jump_eq, lift_bind, lift_bind]
  exact .after agree_jumpHead fun head => carries_jumpTo hmake loops head.1 head.2

section Declarations

variable (hb : n ≤ b) (hb' : n ≤ b')
include hb hb'

theorem carries_declarations {α : Type} {item item' : Parser α} (h : j.Agree 1 n item item') :
    j.Carries 0 n (fun _ ds => ds = []) id (itemBlock (onCursor item) b)
      (itemBlock (onCursor item') b') := by
  have hany : Gives (fun _ => True) item := fun _ _ _ _ => trivial
  have hblock := carries_itemBlock (R := fun _ ds => ds = []) rfl
    (fun _ _ _ _ ha has => by rw [ha.2, has]; rfl) (Carries.lift h hany) hb hb'
  intro m o hm ho
  refine (hblock.weak m o (by omega) ho).imp fun x ds hds => ⟨hds, ?_⟩
  rw [List.map_id]
  rfl

theorem carries_structDef :
    j.Carries 0 n (fun _ ds => ds = []) id (structDef b) (structDef b') :=
  (carries_declarations hb hb' (agree_fieldDecl hb hb')).bind fun _ ds hds => by
    subst hds
    exact .pure rfl rfl

theorem carries_typeDef : j.Carries 0 n (fun _ ds => ds = []) id (typeDef b) (typeDef b') := by
  have hstruct := carries_structDef (j := j) hb hb'
  refine .accept (by decide) (hstruct.mono (Nat.sub_le n 1)) (.accept (by decide) ?_ ?_)
  · refine ((carries_declarations hb hb' (agree_requirement hb hb')).mono (Nat.sub_le n 1)).bind ?_
    rintro _ ds rfl
    exact .pure rfl rfl
  · refine .accept (by decide) ?_ (.kind (fun k => ?_) fun k hk => ?_)
    · intro m o hm ho
      have hagree := (Seam.agree_typeExpr hb hb').weak m o.cursor (Nat.le_trans hm (Nat.sub_le n 1)) ho
      exact (CarriesFrom.lift (C := fun _ => True) hagree fun _ _ _ _ => trivial).imp
        fun _ _ h => ⟨h.2, rfl⟩
    · exact (Carries.ite hstruct (.unexpected _)).inside
    · rw [if_neg (by decide)]
      exact .unexpected _

theorem carries_typeDecl : j.CarriesStmt 1 n (typeDecl b) (typeDecl b') := by
  refine .after (Seam.Agree.expect (by decide)) fun _ => ?_
  refine .after (Seam.Agree.identifier _).weak fun name => ?_
  refine .after ((agree_typeParams hb hb').mono (by omega)) fun params => ?_
  refine ((carries_typeDef hb hb').mono (by omega)).bind fun definition ds hds => ?_
  subst hds
  exact .pure (List.nil_subset _) rfl

omit hb hb' in
theorem knowsAlias_bind {α : Type} (name : String) (f : Bool → Reader α) (o : Progress) :
    (knowsAlias name >>= f) o = f (decide (name ∈ o.aliases)) o := rfl

omit hb hb' in
/-- The end of an alias declaration, whose target is no alias known so far. -/
theorem carriesFrom_addAlias {m : Nat} {o : Progress} (ho : j.Within m o.cursor) (name : Name)
    (target : TypeExpr) (span : Span) :
    j.CarriesFrom m (fun s ds => ds = [⟨name.text, target.direct?⟩] ∧ ds ⊆ aliases [s])
      (renumber j.loops) o
      (aliasOf name target span) (aliasOf name target span) := by
  intro s t ht
  cases ht
  refine ⟨{ o with aliases := name.text :: o.aliases }, [⟨name.text, target.direct?⟩], rfl, ho,
    ⟨rfl, ?_⟩, List.Subset.refl _, fun _ => rfl⟩
  simp [aliases, all, alias?]

/-- An alias whose target is none of those known before is declared in both readings. -/
theorem carries_aliasDecl : j.CarriesStmt 1 n (aliasDecl b) (aliasDecl b') := by
  refine .after (Seam.Agree.expect (by decide)) fun start => ?_
  refine .after (Seam.Agree.identifier _).weak fun name => ?_
  refine .after (Seam.Agree.expect (by decide)).weak fun _ => ?_
  refine .after ((Seam.agree_typeExpr hb hb').weak.mono (by omega)) fun target => ?_
  intro m o hm ho
  have hlast := carriesFrom_addAlias ho name target (start.span.upTo target.span)
  dsimp only
  split
  · rename_i other
    intro s t ht
    rw [knowsAlias_bind] at ht
    by_cases hknown : other.text ∈ (j.alone o).aliases
    · rw [decide_eq_true hknown] at ht
      cases ht
    · rw [decide_eq_false hknown] at ht
      obtain ⟨u, ds, rfl, hu⟩ := hlast s t ht
      refine ⟨u, ds, rfl, hu.within, hu.declared.2, hu.aliases, fun hclear => ?_⟩
      obtain rfl := hu.declared.1
      -- the target is not among the aliases that came before either
      have hother : other.text ∉ (j.amid o).aliases := by
        intro hmem
        rcases List.mem_append.1 hmem with hmem | hmem
        · exact hknown hmem
        · exact hclear _ List.mem_cons_self other.text hmem rfl
      rw [knowsAlias_bind, decide_eq_false hother]
      exact hu.amid hclear
  · exact hlast.imp fun s ds hds => ⟨hds.2, rfl⟩

end Declarations

end Simple

/-! ### Statements with others inside -/

section Compound

variable {j : Join} {n b b' : Nat} {rule rule' : List Enclosing → Reader Stmt}
  (h : ∀ loops, j.CarriesStmt 1 n (rule loops) (rule' (j.shifted loops)))
  (hb : n + 1 ≤ b) (hb' : n + 1 ≤ b')
include h hb hb'

theorem carries_body (loops : List Enclosing) {m : Nat} (hm : m ≤ n + 1) :
    j.CarriesBody 0 m (block (rule loops) b) (block (rule' (j.shifted loops)) b') :=
  (carries_block (h loops) (by omega) (by omega)).weak.mono hm

theorem carries_function (isMethod : Bool) :
    j.Carries 1 (n + 1) (fun f ds => ds ⊆ aliases f.body) (renumberFunction j.loops)
      (function rule b isMethod) (function rule' b' isMethod) := by
  refine .after (Seam.Agree.expect (by decide)) fun start => ?_
  refine .after (Seam.Agree.identifier _).weak fun name => ?_
  refine .after ((agree_typeParams hb hb').mono (by omega)) fun typeParams => ?_
  refine .after (Seam.Agree.expect (by decide)).weak fun _ => ?_
  have hrest (receiver : Option Name) :
      j.Carries 0 n (fun f ds => ds ⊆ aliases f.body) (renumberFunction j.loops)
        (functionFrom rule b start.span name typeParams receiver)
        (functionFrom rule' b' start.span name typeParams receiver) := by
    refine .after ((agree_params hb hb').mono (by omega)) fun values => ?_
    refine .after (agree_afterType hb hb' (by decide) (by omega)) fun result => ?_
    refine (carries_body h hb hb' [] (by omega)).bind fun body ds hds => ?_
    exact .after Seam.Agree.lastSpan fun _ => .pure (by rwa [List.append_nil]) rfl
  refine .ite (.after ((agree_receiver hb hb').mono (by omega)) fun receiver => ?_) ?_
  · exact hrest receiver
  · exact hrest none

theorem carries_elseTail (loops : List Enclosing) : ∀ {m c c' : Nat}, m ≤ n + 1 → m ≤ c → m ≤ c' →
    j.Carries 0 m (fun x ds => ds ⊆ aliases ((x.1.map (·.2)).flatten ++ x.2.getD []))
      (fun x => (renumberBranches j.loops x.1, renumberElse j.loops x.2))
      (elseTail (rule loops) b c) (elseTail (rule' (j.shifted loops)) b' c')
  | 0, _, _, _, _, _ => .zero
  | m + 1, c + 1, c' + 1, hm, hc, hc' => by
    refine .accept (by decide) (.accept (by decide) ?_ ?_) (.pure (List.nil_subset _) rfl)
    · refine .after ((agree_expr hb hb' false).weak.mono (by omega)) fun test => ?_
      refine (carries_body h hb hb' loops (by omega)).bind fun body ds hds => ?_
      have htail := carries_elseTail loops (m := m) (by omega) (Nat.le_of_succ_le_succ hc)
        (Nat.le_of_succ_le_succ hc')
      refine (htail.mono (by omega)).bind fun x ds' hds' => .pure ?_ rfl
      rw [List.append_nil, List.map_cons, List.flatten_cons, List.append_assoc]
      exact append_subset_aliases hds hds'
    · refine (carries_body h hb hb' loops (by omega)).bind fun body ds hds => .pure ?_ rfl
      rwa [List.append_nil]

theorem carries_ifElse (loops : List Enclosing) :
    j.CarriesStmt 1 (n + 1) (ifElse (rule loops) b) (ifElse (rule' (j.shifted loops)) b') := by
  refine .after (Seam.Agree.expect (by decide)) fun _ => ?_
  refine .after ((agree_expr hb hb' false).weak.mono (by omega)) fun test => ?_
  refine (carries_body h hb hb' loops (by omega)).bind fun body ds hds => ?_
  have htail := carries_elseTail h hb hb' loops (Nat.le_refl (n + 1)) hb hb'
  refine (htail.mono (by omega)).bind fun x ds' hds' => .pure ?_ rfl
  have hinside : aliases (body ++ ((x.1.map (·.2)).flatten ++ x.2.getD [])) ⊆
      aliases [.ifElse ((test, body) :: x.1) x.2] :=
    aliases_of_inside (by rw [inside, insideBranches, insideBranches_eq, insideElse_eq, all_append,
      all_append, List.append_assoc])
  rw [List.append_nil]
  exact List.Subset.trans (append_subset_aliases hds hds') hinside

theorem carries_whileLoop (loops : List Enclosing) :
    j.CarriesStmt 1 (n + 1) (whileLoop rule b loops) (whileLoop rule' b' (j.shifted loops)) := by
  refine .after (Seam.Agree.expect (by decide)) fun _ => .newLoop fun id => ?_
  refine .after ((agree_expr hb hb' false).weak.mono (by omega)) fun test => ?_
  exact (carries_body h hb hb' (⟨id, none⟩ :: loops) (by omega)).wrap (fun _ => rfl) fun _ => rfl

section Loops

omit h

variable {body body' : Reader (List Stmt)}
  (hbody : j.CarriesBody 1 (n + 1) body body') (id : Nat) (label : Option Name)
include hbody

theorem carries_iteration :
    j.CarriesStmt 0 n (iteration body b id label) (iteration body' b' (id + j.loops) label) := by
  have hname {m : Nat} : j.Agree 0 m (identifier "a loop variable") (identifier "a loop variable") :=
    (Seam.Agree.identifier _).weak
  refine .after hname fun first => .after (.after (by decide) hname) fun second => ?_
  refine .after (Seam.Agree.expect (by decide)).weak fun _ => ?_
  refine .test tests_startsRange ?_ ?_
  · refine CarriesIn.weak (i := 1) (.after Seam.AgreeIn.next fun _ => ?_)
    refine .after ((agree_range hb hb').mono (by omega)) fun range => ?_
    exact (hbody.weak.mono (by omega)).wrap (fun _ => rfl) fun _ => rfl
  · refine .after ((agree_expr hb hb' false).weak.mono (by omega)) fun iterable => ?_
    exact (hbody.weak.mono (by omega)).wrap (fun _ => rfl) fun _ => rfl

theorem carries_stepped {init : Stmt} (hinit : renumber j.loops init = init) :
    j.CarriesStmt 0 n (stepped body b id label init) (stepped body' b' (id + j.loops) label init) := by
  refine .semicolon fun _ => ?_
  refine .after ((agree_expr hb hb' false).weak.mono (by omega)) fun test => .semicolon fun _ => ?_
  refine .after ((agree_expr hb hb' false).weak.mono (by omega)) fun update => ?_
  refine (hbody.weak.mono (by omega)).bind fun body ds hds => .pure ?_ ?_
  · rw [List.append_nil]
    have hinside : aliases ([init] ++ body) ⊆
        aliases [.forLoop id label (some init) (some test) (some update) body] :=
      aliases_of_inside (by rw [inside, insideInit_eq, all_append]; rfl)
    exact List.Subset.trans (append_subset_aliases (List.nil_subset _) hds) hinside
  · rw [renumber, renumberInit, hinit]

omit hb hb' in
theorem carries_bareLoop (test : Option Expr) :
    j.CarriesStmt 1 (n + 1) (do return .forLoop id label none test none (← body))
      (do return .forLoop (id + j.loops) label none test none (← body')) :=
  hbody.wrap (fun _ => rfl) fun _ => rfl

theorem carries_testedLoop :
    j.CarriesStmt 0 n (testedLoop body b id label) (testedLoop body' b' (id + j.loops) label) := by
  refine .after ((agree_expr hb hb' false).weak.mono (by omega)) fun test => ?_
  have hbare := carries_bareLoop hbody id label (some test)
  -- a semicolon at the seam is no part of the head: where the file ends there, the body is missing
  refine CarriesIn.everywhere (.kind fun k => .ite ?_ ?_) fun o s t hn hr ht => ?_
  · exact (carries_stepped hb hb' hbody id label rfl).inside
  · exact (hbare.weak.mono (by omega)).inside
  · rw [lift_kind_bind, cursor_alone, Seam.here_ended_nil hr, j.finish_kind] at ht
    exact hbare.not_ok (by omega) hr ht

end Loops

/-- Behind the label of a loop, if it has one. -/
theorem carries_loopHead (loops : List Enclosing) (label : Option Name) :
    j.CarriesStmt 0 n (loopHead rule b loops label) (loopHead rule' b' (j.shifted loops) label) := by
  refine .newLoop fun id => ?_
  have hbody := carries_block (h (⟨id, label.map (·.text)⟩ :: loops)) (by omega : n ≤ b)
    (by omega : n ≤ b')
  have htested := carries_testedLoop hb hb' hbody id label
  have hiteration := carries_iteration hb hb' hbody id label
  refine .kind (fun first => .ite ?_ (.test tests_startsIteration fun yes => .ite ?_ (.ite ?_ ?_)))
    fun k hk => ?_
  · exact ((carries_bareLoop hbody id label none).weak.mono (by omega)).inside
  · exact hiteration.inside
  · refine CarriesIn.weak (i := 1) ((CarriesIn.lift ((agree_varDecl (by omega) (by omega) false))
      (gives_varDecl b false)).bind fun init ds hinit => ?_)
    obtain ⟨⟨hsimple, hjump⟩, rfl⟩ := hinit
    exact (carries_stepped hb hb' hbody id label
      (renumber_of_simple j.loops hsimple hjump)).mono (by omega)
  · exact htested.inside
  · -- neither the end of the file nor a semicolon begins a block or a declaration
    rcases Kind.not_isInner.1 hk with rfl | rfl <;>
      exact .test tests_startsIteration hiteration.inside htested

theorem carries_forLoop (loops : List Enclosing) :
    j.CarriesStmt 1 (n + 1) (forLoop rule b loops) (forLoop rule' b' (j.shifted loops)) := by
  rw [forLoop_eq, forLoop_eq]
  refine .after (Seam.Agree.expect (by decide)) fun _ => .test tests_startsLabel ?_ ?_
  · refine CarriesIn.weak (i := 1) (.after Seam.AgreeIn.next fun _ => ?_)
    refine .after (Seam.Agree.identifier _).weak fun name => ?_
    exact (carries_loopHead h hb hb' loops (some name)).mono (by omega)
  · exact carries_loopHead h hb hb' loops none

theorem carries_implementation :
    j.Carries 1 (n + 1) (fun m ds => ds ⊆ aliases (MemberDecl.body m)) (renumberMember j.loops)
      (implementation rule b) (implementation rule' b') := by
  refine .ifKind (by decide) ?_ (.test (Seam.tests_atWord _) ?_ (.unexpected _))
  · refine Carries.inside ?_
    refine (carries_function h hb hb' true).bind fun f ds hds => .pure ?_ rfl
    rwa [List.append_nil]
  · refine .after (agree_getterHead hb hb') fun head => ?_
    refine (carries_body h hb hb' [] (by omega)).bind fun body ds hds => .pure ?_ rfl
    rwa [List.append_nil]

theorem carries_fulfillment :
    j.CarriesStmt 1 (n + 1) (fulfillment rule b) (fulfillment rule' b') := by
  refine .after (Seam.Agree.expect (by decide)) fun _ => ?_
  refine .after (Seam.Agree.identifier _).weak fun contract => ?_
  refine .after (Seam.Agree.expect (by decide)).weak fun _ => ?_
  refine .after (Seam.Agree.identifier _).weak fun target => ?_
  have hmembers := carries_itemBlock
    (R := fun members ds => ds ⊆ aliases (members.map MemberDecl.body).flatten)
    (List.nil_subset _) ?_ (carries_implementation h hb hb') hb hb'
  · refine (hmembers.weak.mono (by omega)).bind fun x ds hds => .pure ?_ ?_
    · rw [List.append_nil]
      exact List.Subset.trans hds (aliases_fulfill contract target x.1)
    · rw [renumberMember_left, renumberMember_right]
      rfl
  · intro m rest ds ds' hm hrest
    rw [List.map_cons, List.flatten_cons]
    exact append_subset_aliases hm hrest

theorem carries_statementWith (loops : List Enclosing) :
    j.CarriesStmt 1 (n + 1) (statementWith rule b loops) (statementWith rule' b' (j.shifted loops)) := by
  have hexpr : j.CarriesStmt 1 (n + 1) (do return .expr (← expr b true))
      (do return .expr (← expr b' true)) :=
    .after (agree_expr hb hb' true) fun _ => .pure (List.nil_subset _) rfl
  have hvar := carriesIn_simple (j := j) (agree_varDecl hb hb' true) (gives_varDecl b true)
  refine .kind (fun first => ?_) fun k hk => ?_
  · split
    · exact hvar
    · exact hvar
    · exact hvar
    · exact hvar
    · refine Carries.inside ?_
      refine (carries_function h hb hb' false).bind fun f ds hds => .pure ?_ rfl
      rw [List.append_nil]
      exact List.Subset.trans hds (aliases_of_inside (by rw [inside, insideFunction]))
    · exact carriesIn_simple (agree_ret hb hb') (gives_ret b)
    · exact (carries_ifElse h hb hb' loops).inside
    · exact (carries_whileLoop h hb hb' loops).inside
    · exact (carries_forLoop h hb hb' loops).inside
    · exact carries_jump (fun _ _ _ _ => rfl) loops
    · exact carries_jump (fun _ _ _ _ => rfl) loops
    · exact (carries_typeDecl hb hb').inside
    · exact (carries_aliasDecl hb hb').inside
    · exact (carries_fulfillment h hb hb').inside
    · exact hexpr.inside
  · rcases Kind.not_isInner.1 hk with rfl | rfl <;> exact hexpr

end Compound

/-- A statement in front of the seam is read the same whether the file ends there or goes on. -/
theorem carries_statement {j : Join} : ∀ {n b b' : Nat} (loops : List Enclosing), n < b → n < b' →
    j.CarriesStmt 1 n (statement b loops) (statement b' (j.shifted loops))
  | 0, _, _, _, _, _ => .zero
  | n + 1, b + 1, b' + 1, loops, hb, hb' =>
    carries_statementWith (fun loops => carries_statement loops (by omega) (by omega)) (by omega)
      (by omega) loops

end Join

end Sable
