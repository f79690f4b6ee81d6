import Sable.Proofs.Reading.Expressions

/-!
# Reading statements

`Reads` for the rules of statements. Each reads a token at least, so a budget of one unit for every
token left is never used up. The error for a jump without a loop points at the jump with its label, and
the error for an alias of an alias at the name of the other alias.
-/

namespace Sable

namespace Reader

open Sable.Parser

variable {n : Nat}

theorem moves_expr (budget : Nat) (objects : Bool) : Moves n (expr budget objects) :=
  fun c => (advances_expression pointsAtLiterals_readLiteral budget objects c).forward

theorem moves_openBlock : Moves n openBlock :=
  .bind (moves_accept _) fun _ => .ite (.pure _) <|
    .bind (moves_accept _) fun _ => .ite (.pure _) (moves_unexpected _)

section Blocks

variable {α : Type} {rule : Reader Stmt} {item : Reader α}

theorem moves_statementsUntil (close : Kind) (h : Moves n rule) :
    ∀ budget, Moves n (statementsUntil close rule budget)
  | 0 => .pure _
  | budget + 1 =>
    .bind (.lift moves_kind) fun _ => .ite (.pure _) <|
      .bind (.lift (moves_accept _)) fun _ => .ite (moves_statementsUntil close h budget) <|
        .bind h fun _ => .bind (moves_statementsUntil close h budget) fun _ => .pure _

theorem moves_block (h : Moves n rule) (budget : Nat) : Moves n (block rule budget) :=
  .bind (.lift moves_openBlock) fun close =>
    .bind (moves_statementsUntil close h budget) fun _ =>
      .bind (.lift (moves_expect close)) fun _ => .pure _

theorem moves_itemsUntil (close : Kind) (h : Moves n item) :
    ∀ budget, Moves n (itemsUntil close item budget)
  | 0 => .pure _
  | budget + 1 =>
    .bind (.lift moves_kind) fun _ => .ite (.pure _) <|
      .ite (.bind (.lift moves_next) fun _ => moves_itemsUntil close h budget) <|
        .bind h fun _ => .bind (moves_itemsUntil close h budget) fun _ => .pure _

theorem moves_itemBlock (h : Moves n item) (budget : Nat) : Moves n (itemBlock item budget) :=
  .bind (.lift moves_peek) fun _ => .bind (.lift moves_openBlock) fun close =>
    .bind (moves_itemsUntil close h budget) fun _ =>
      .bind (.lift (moves_expect close)) fun _ => .pure _

end Blocks

theorem moves_binding (budget : Nat) (objects : Bool) (modifier : Modifier) :
    Moves n (binding budget objects modifier) :=
  moves_name fun _ hname => .bind (moves_after _ (moves_typeExpr budget)) fun _ =>
    .bind (moves_after _ (moves_expr budget objects)) fun _ => .ite (moves_fail _ hname) (.pure _)

theorem takes_varDecl (budget : Nat) (objects : Bool) : Takes n (varDecl budget objects) := by
  refine takes_next fun word _ => ?_
  have hlist : ∀ modifier, Moves n (commaList (binding budget objects modifier) budget) :=
    fun modifier c => reads_commaList trivial (moves_binding budget objects modifier) budget c
  have hdecls : ∀ modifier, Moves n (bindings budget objects modifier) :=
    fun modifier => .bind (hlist modifier) fun _ => .pure _
  exact .ite (.bind (moves_accept _) fun _ => hdecls _) (hdecls _)

theorem moves_typeParams (budget : Nat) : Moves n (typeParams budget) := by
  have hparam : Moves n (typeParam budget) :=
    .bind (moves_identifier _) fun _ => .bind (moves_after _ (moves_typeExpr budget)) fun _ => .pure _
  exact .bind (moves_accept _) fun _ => .ite
    (.bind (fun c => reads_commaList trivial hparam budget c) fun _ =>
      .bind (moves_expect _) fun _ => .pure _)
    (.pure _)

theorem moves_receiver (budget : Nat) : Moves n (receiver budget) :=
  .bind (moves_atWord _) fun _ => .ite
    (.bind moves_next fun _ => .bind (moves_after _ (moves_typeExpr budget)) fun _ =>
      .bind moves_kind fun _ => .ite (.bind (moves_expect _) fun _ => .pure _) (.pure _))
    (.pure _)

theorem moves_params (budget : Nat) : Moves n (params budget) := by
  have hparam : Moves n (param budget) :=
    .bind (moves_identifier _) fun _ => .bind (moves_after _ (moves_typeExpr budget)) fun _ =>
      .bind (moves_after _ (moves_expr budget true)) fun _ => .pure _
  exact .bind (fun c => reads_listUntil trivial hparam budget c) fun _ =>
    .bind (moves_expect _) fun _ => .pure _

theorem takes_ret (budget : Nat) : Takes n (ret budget) :=
  takes_next fun _ _ => .bind moves_kind fun _ => .bind moves_onSameLine fun _ =>
    .ite (.bind (moves_expr budget true) fun _ => .pure _) (.pure _)

theorem moves_startsIteration : Moves n startsIteration :=
  .bind (moves_kindAt _) fun _ => .ite
    (.bind (moves_kindAt _) fun _ => .ite (.pure _) <|
      .bind (moves_kindAt _) fun _ => .bind (moves_kindAt _) fun _ =>
        .bind (moves_kindAt _) fun _ => .pure _)
    (.pure _)

theorem moves_startsRange : Moves n startsRange :=
  .bind (moves_kindAt _) fun _ => .bind (moves_atWord _) fun _ => .pure _

theorem moves_range (budget : Nat) : Moves n (range budget) := by
  have hstop : ∀ (start : Expr) (inclusive : Bool), Moves n (rangeFrom budget start inclusive) :=
    fun start inclusive =>
    .bind moves_next fun _ => .bind (moves_expr budget false) fun _ =>
      .bind (moves_atWord _) fun _ => .ite
        (.bind moves_next fun _ => .bind (moves_expr budget false) fun _ => .pure _) (.pure _)
  exact .bind (moves_expr budget false) fun start => .bind (moves_atWord _) fun _ =>
    .bind (moves_atWord _) fun _ => .ite (hstop start false) <|
      .ite (hstop start true) (.bind (moves_unexpected _) fun inclusive => hstop start inclusive)

theorem target_error {loops : List Enclosing} {label : Option Name} {span : Span} {e : SyntaxError}
    (h : target loops label span = .error e) : e.span = span := by
  unfold target at h
  repeat' split at h
  all_goals cases h <;> rfl

theorem moves_jumpTo (make : Nat → Option Name → Span → Stmt) (loops : List Enclosing) {start : Span}
    (hstart : start.Below n) {label : Option Name} (hlabel : ∀ name ∈ label, name.span.Below n) :
    Moves n (jumpTo make loops start label) := by
  unfold jumpTo
  dsimp only
  split
  · exact .pure _
  · rename_i e he
    refine moves_fail e.cause ?_
    rw [target_error he]
    cases label with
    | none => exact hstart
    | some name => exact hstart.upTo (hlabel name rfl)

theorem takes_jump (make : Nat → Option Name → Span → Stmt) (loops : List Enclosing) :
    Takes n (jump make loops) := by
  refine takes_next fun start hstart => .bind moves_kind fun _ => .bind moves_onSameLine fun _ => ?_
  refine .ite (moves_name fun label hlabel => moves_jumpTo make loops hstart ?_)
    (moves_jumpTo make loops hstart (by rintro _ ⟨⟩))
  rintro _ ⟨⟩
  exact hlabel

theorem moves_getterHead (budget : Nat) : Moves n (getterHead budget) :=
  .bind moves_next fun _ => .bind (moves_identifier _) fun _ => .bind (moves_expect _) fun _ =>
    .bind (moves_typeExpr budget) fun _ => .pure _

theorem moves_requirement (budget : Nat) : Moves n (requirement budget) :=
  .bind (moves_accept _) fun _ => .ite
    (.bind (moves_identifier _) fun _ => .bind (moves_expect _) fun _ =>
      .bind (moves_receiver budget) fun _ => .bind (moves_params budget) fun _ =>
        .bind (moves_after _ (moves_typeExpr budget)) fun _ => .pure _)
    (.bind (moves_atWord _) fun _ => .ite
      (.bind (moves_getterHead budget) fun _ => .pure _) (moves_unexpected _))

theorem moves_fieldDecl (budget : Nat) : Moves n (fieldDecl budget) :=
  .bind (moves_identifier _) fun _ => .bind (moves_accept _) fun _ =>
    .bind (moves_expect _) fun _ => .bind (moves_typeExpr budget) fun _ => .pure _

theorem moves_structDef (budget : Nat) : Moves n (structDef budget) :=
  .bind (moves_itemBlock (.lift (moves_fieldDecl budget)) budget) fun _ => .pure _

theorem moves_typeDef (budget : Nat) : Moves n (typeDef budget) :=
  .bind (.lift (moves_accept _)) fun _ => .ite (moves_structDef budget) <|
    .bind (.lift (moves_accept _)) fun _ => .ite
      (.bind (moves_itemBlock (.lift (moves_requirement budget)) budget) fun _ => .pure _) <|
      .bind (.lift (moves_accept _)) fun _ => .ite
        (.lift (moves_typeExpr budget))
        (.bind (.lift moves_kind) fun _ => .ite (moves_structDef budget)
          (.lift (moves_unexpected _)))

theorem advances_typeDecl (budget : Nat) : ∀ o, Advances n o (typeDecl budget o) :=
  advances_keyword _ fun _ => .bind (.lift (moves_identifier _)) fun _ =>
    .bind (.lift (moves_typeParams budget)) fun _ => .bind (moves_typeDef budget) fun _ => .pure _

theorem moves_addAlias (name : String) : Moves n (addAlias name) :=
  fun _ => .still rfl

theorem advances_aliasDecl (budget : Nat) : ∀ o, Advances n o (aliasDecl budget o) := by
  have hlast : ∀ (name : Name) (start : Span) (target : TypeExpr),
      Moves n (aliasOf name target (start.upTo target.span)) := fun name _ _ =>
    .bind (moves_addAlias _) fun _ => .pure _
  refine advances_keyword _ fun start => .bind (.lift (moves_identifier _)) fun name =>
    .bind (.lift (moves_expect _)) fun _ o ho => ?_
  refine Reads.bind (Moves.lift (moves_typeExpr budget) o) (fun target t ht => ?_) ho
  split
  · rename_i other
    have hother : other.span.Below n := by
      obtain ⟨_, htype, -⟩ := lift_eq_ok.1 ht
      obtain ⟨x, hx, hspan⟩ := typeExpr_named htype
      exact hspan ▸ ho.rest x hx
    refine Moves.bind (fun o => .ok _) (fun _ => .ite ?_ (hlast name _ _)) t
    exact .bind (.lift (moves_fail _ hother)) fun _ => hlast name _ _
  · exact hlast name _ _ t

section Compound

variable {rule : List Enclosing → Reader Stmt} (h : ∀ loops, Moves n (rule loops))
include h

theorem advances_function (budget : Nat) (isMethod : Bool) :
    ∀ o, Advances n o (function rule budget isMethod o) := by
  have hbody : ∀ (start : Span) (name : Name) (params : List TypeParam) (receiver : Option Name),
      Moves n (functionFrom rule budget start name params receiver) :=
    fun _ _ _ _ => .bind (.lift (moves_params budget)) fun _ =>
      .bind (.lift (moves_after _ (moves_typeExpr budget))) fun _ =>
        .bind (moves_block (h []) budget) fun _ => .bind (.lift moves_lastSpan) fun _ => .pure _
  refine advances_keyword _ fun _ => .bind (.lift (moves_identifier _)) fun _ =>
    .bind (.lift (moves_typeParams budget)) fun _ => .bind (.lift (moves_expect _)) fun _ => ?_
  exact .ite (.bind (.lift (moves_receiver budget)) fun _ => hbody _ _ _ _) (hbody _ _ _ _)

theorem moves_elseTail (loops : List Enclosing) (bound : Nat) :
    ∀ budget, Moves n (elseTail (rule loops) bound budget)
  | 0 => .pure _
  | budget + 1 =>
    .bind (.lift (moves_accept _)) fun _ => .ite
      (.bind (.lift (moves_accept _)) fun _ => .ite
        (.bind (.lift (moves_expr bound false)) fun _ => .bind (moves_block (h loops) bound) fun _ =>
          .bind (moves_elseTail loops bound budget) fun _ => .pure _)
        (.bind (moves_block (h loops) bound) fun _ => .pure _))
      (.pure _)

theorem advances_ifElse (loops : List Enclosing) (budget : Nat) :
    ∀ o, Advances n o (ifElse (rule loops) budget o) :=
  advances_keyword _ fun _ => .bind (.lift (moves_expr budget false)) fun _ =>
    .bind (moves_block (h loops) budget) fun _ =>
      .bind (moves_elseTail h loops budget budget) fun _ => .pure _

omit h in
theorem moves_newLoop : Moves n newLoop :=
  fun _ => .still rfl

theorem advances_whileLoop (budget : Nat) (loops : List Enclosing) :
    ∀ o, Advances n o (whileLoop rule budget loops o) :=
  advances_keyword _ fun _ => .bind moves_newLoop fun _ =>
    .bind (.lift (moves_expr budget false)) fun _ => .bind (moves_block (h _) budget) fun _ => .pure _

omit h in
theorem moves_iteration {body : Reader (List Stmt)} (hb : Moves n body) (budget id : Nat)
    (label : Option Name) : Moves n (iteration body budget id label) :=
  .bind (.lift (moves_identifier _)) fun _ =>
    .bind (.lift (moves_after _ (moves_identifier _))) fun _ =>
      .bind (.lift (moves_expect _)) fun _ => .bind (.lift moves_startsRange) fun _ => .ite
        (.bind (.lift moves_next) fun _ => .bind (.lift (moves_range budget)) fun _ =>
          .bind hb fun _ => .pure _)
        (.bind (.lift (moves_expr budget false)) fun _ => .bind hb fun _ => .pure _)

omit h in
theorem moves_stepped {body : Reader (List Stmt)} (hb : Moves n body) (budget id : Nat)
    (label : Option Name) (init : Stmt) : Moves n (stepped body budget id label init) :=
  .bind (.lift (moves_expect _)) fun _ => .bind (.lift (moves_expr budget false)) fun _ =>
    .bind (.lift (moves_expect _)) fun _ => .bind (.lift (moves_expr budget false)) fun _ =>
      .bind hb fun _ => .pure _

theorem advances_forLoop (budget : Nat) (loops : List Enclosing) :
    ∀ o, Advances n o (forLoop rule budget loops o) := by
  refine advances_keyword _ fun _ => .bind (.lift (moves_atWord _)) fun _ =>
    .bind (.lift (moves_kindAt _)) fun _ => ?_
  have hhead : ∀ label : Option Name, Moves n (loopHead rule budget loops label) := by
    intro label
    refine .bind moves_newLoop fun id => .bind (.lift moves_kind) fun first => ?_
    have hb : Moves n (block (rule (⟨id, label.map (·.text)⟩ :: loops)) budget) :=
      moves_block (h _) budget
    refine .ite (.bind hb fun _ => .pure _) (.bind (.lift moves_startsIteration) fun _ => ?_)
    refine .ite (moves_iteration hb budget id label) (.ite ?_ ?_)
    · exact .bind (.lift (takes_varDecl budget false).moves) fun _ =>
        moves_stepped hb budget id label _
    · exact .bind (.lift (moves_expr budget false)) fun _ => .bind (.lift moves_kind) fun _ =>
        .ite (moves_stepped hb budget id label _) (.bind hb fun _ => .pure _)
  exact .ite (.bind (.lift moves_next) fun _ => .bind (.lift (moves_identifier _)) fun _ => hhead _)
    (hhead none)

theorem moves_implementation (budget : Nat) : Moves n (implementation rule budget) :=
  .bind (.lift moves_kind) fun _ => .ite
    (.bind (fun o => (advances_function h budget true o).forward) fun _ => .pure _)
    (.bind (.lift (moves_atWord _)) fun _ => .ite
      (.bind (.lift (moves_getterHead budget)) fun _ =>
        .bind (moves_block (h []) budget) fun _ => .pure _)
      (.lift (moves_unexpected _)))

theorem advances_fulfillment (budget : Nat) : ∀ o, Advances n o (fulfillment rule budget o) :=
  advances_keyword _ fun _ => .bind (.lift (moves_identifier _)) fun _ =>
    .bind (.lift (moves_expect _)) fun _ => .bind (.lift (moves_identifier _)) fun _ =>
      .bind (moves_itemBlock (moves_implementation h budget) budget) fun _ => .pure _

theorem advances_statementWith (budget : Nat) (loops : List Enclosing) (o : Progress) :
    Advances n o (statementWith rule budget loops o) := by
  simp only [statementWith, lift_kind_bind]
  generalize hk : o.cursor.here.kind = k
  have hvar (hne : k ≠ .endOfFile) :
      Advances n o ((liftM (varDecl budget true) : Reader Stmt) o) :=
    .lift ((takes_varDecl budget true).advances (hk ▸ hne))
  split
  · exact hvar (by simp)
  · exact hvar (by simp)
  · exact hvar (by simp)
  · exact hvar (by simp)
  · exact .bind (advances_function h budget false o) fun _ _ _ => .pure _
  · exact .lift ((takes_ret budget).advances (by simp [hk]))
  · exact advances_ifElse h loops budget o
  · exact advances_whileLoop h budget loops o
  · exact advances_forLoop h budget loops o
  · exact .lift ((takes_jump .leave loops).advances (by simp [hk]))
  · exact .lift ((takes_jump .skip loops).advances (by simp [hk]))
  · exact advances_typeDecl budget o
  · exact advances_aliasDecl budget o
  · exact advances_fulfillment h budget o
  · have hexpr := advances_expression (n := n) pointsAtLiterals_readLiteral budget true o.cursor
    exact .bind (.lift hexpr) fun _ _ _ => .pure _

end Compound

theorem advances_statement : ∀ (budget : Nat) (loops : List Enclosing) (o : Progress),
    Advances n o (statement budget loops o)
  | 0, _, _ => .lift (.error Cursor.Below.here)
  | budget + 1, loops, o =>
    advances_statementWith (fun loops o => (advances_statement budget loops o).forward) budget loops o

/-- Enough budget for the tokens left suffices to read statements up to a closing token or the end
of the file. -/
theorem statementsUntil_ends {rule : Reader Stmt} {close : Kind}
    (h : ∀ {n} o, Advances n o (rule o)) :
    ∀ {budget : Nat} {o t : Progress} {body : List Stmt}, o.cursor.rest.length < budget →
      statementsUntil close rule budget o = .ok (body, t) →
      t.cursor.here.kind = close ∨ t.cursor.here.kind = .endOfFile
  | budget + 1, o, t, body, hlt, hr => by
    simp only [statementsUntil, lift_kind_bind, ite_run, lift_accept_bind] at hr
    split at hr
    · rename_i hclose
      cases hr
      exact hclose
    · split at hr
      · rename_i hs
        have hrest := Cursor.rest_eq_of_kind hs (by simp)
        refine statementsUntil_ends h ?_ hr
        rw [hrest, List.length_cons] at hlt
        exact Nat.lt_of_succ_lt_succ hlt
      · obtain ⟨first, u, hu, hr⟩ := bind_eq_ok.1 hr
        obtain ⟨rest, v, hv, hr⟩ := bind_eq_ok.1 hr
        cases hr
        refine statementsUntil_ends h ?_ hv
        exact Nat.lt_of_lt_of_le (Advances.length_lt (h o) hu) (Nat.le_of_lt_succ hlt)

theorem moves_program (budget : Nat) : Moves n (program budget) :=
  moves_statementsUntil .endOfFile (fun o => (advances_statement budget [] o).forward) budget

end Reader

theorem Program.ofTokens_eq_ok {file : String} {tokens : List Token} {p : Program} :
    Program.ofTokens file tokens = .ok p ↔ p.file = file ∧ ∃ t,
      Reader.program ((Cursor.ofTokens tokens).rest.length + 1) ⟨Cursor.ofTokens tokens, 0, []⟩ =
        .ok (p.body, t) := by
  simp only [Program.ofTokens]
  generalize Reader.program _ _ = r
  cases r with
  | error e => simp
  | ok x =>
    constructor
    · intro h
      cases h
      exact ⟨rfl, x.2, rfl⟩
    · rintro ⟨rfl, t, ht⟩
      cases ht
      rfl

theorem Program.parse_eq_ok {file source : String} {p : Program} :
    Program.parse file source = .ok p ↔
      ∃ tokens, Token.tokenize source = .ok tokens ∧ Program.ofTokens file tokens = .ok p := by
  unfold Program.parse
  cases Token.tokenize source with
  | error e => simp
  | ok tokens => simp [mapError_eq_ok]

end Sable
