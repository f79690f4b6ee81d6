import Sable.Proofs.Joining.Statements
import Sable.Proofs.Termination.Expressions

/-!
# Statements terminate

`Terminates` for each repetition in the grammar of statements (`statementsRound`, `itemsRound`,
`elseRound`), whose rules keep a `Progress` beside the cursor: every round but the last reads a token.
-/

namespace Sable

open Sable.Parser

/-! ### Rules of the cursor -/

section Lift

variable {α β : Type} {A P : Token → Prop} {i n : Nat} {k : Kind}

theorem CoincideIf.lift {p q : Parser α} (h : CoincideIf A P i n p q) :
    CoincideIf A P i n (liftM p : Reader α) (liftM q) := by
  intro o ha ho hn
  obtain ⟨heq, hcons⟩ := h o.cursor ha ho hn
  have hrun : (liftM p : Reader α) o = (liftM q : Reader α) o := by
    show Reader.onCursor p o = Reader.onCursor q o
    rw [Reader.onCursor, Reader.onCursor, heq]
  refine ⟨hrun, fun a t ht => ?_⟩
  obtain ⟨c, hc, rfl⟩ := lift_eq_ok.1 ht
  exact hcons a c hc

theorem CoincideIf.lift_kind {f g : Kind → Reader β}
    (h : ∀ k, CoincideIf A (fun t => P t ∧ t.kind = k) i n (f k) (g k)) :
    CoincideIf A P i n (liftM kind >>= f) (liftM kind >>= g) :=
  fun o ha ho hn => h o.cursor.here.kind o ha ⟨ho, rfl⟩ hn

theorem CoincideIf.lift_accept {f g : Bool → Reader β} (hk : k ≠ .endOfFile)
    (h : Coincide A (i - 1) (n - 1) (f true) (g true))
    (h' : CoincideIf A P i n (f false) (g false)) :
    CoincideIf A P i n (liftM (accept k) >>= f) (liftM (accept k) >>= g) := by
  intro o ha ho hn
  rw [lift_accept_bind, lift_accept_bind]
  by_cases hck : o.cursor.here.kind = k
  · have hne : o.cursor.here.kind ≠ .endOfFile := hck ▸ hk
    have hd := distance_advance hne
    have ho : distance o = distance o.cursor := rfl
    obtain ⟨heq, hcons⟩ := h { o with cursor := o.cursor.advance } (ahead_advance hne ha).2 trivial
      (show distance o.cursor.advance < n - 1 by omega)
    rw [if_pos hck, if_pos hck]
    exact ⟨heq, (Consumes.advance rfl hne hcons).mono (by omega)⟩
  · rw [if_neg hck, if_neg hck]
    exact h' o ha ho hn

theorem CoincideIf.lift_atWord {f g : Bool → Reader β} (word : String)
    (h : CoincideIf A (fun t => t.kind = .identifier) i n (f true) (g true))
    (h' : CoincideIf A P i n (f false) (g false)) :
    CoincideIf A P i n (liftM (atWord word) >>= f) (liftM (atWord word) >>= g) := by
  intro o ha ho hn
  show f (o.cursor.here.isWord word) o = g (o.cursor.here.isWord word) o ∧
    Consumes i o (f (o.cursor.here.isWord word) o)
  cases hw : o.cursor.here.isWord word with
  | false => exact h' o ha ho hn
  | true =>
    refine h o ha ?_ hn
    simp only [Token.isWord, Bool.and_eq_true, beq_iff_eq] at hw
    exact hw.1

/-- A step that leaves the cursor where it is. -/
theorem CoincideIf.silent {p : Reader α} (h : ∀ o, ∃ a t, p o = .ok (a, t) ∧ unread t = unread o) :
    CoincideIf A P 0 n p p := by
  intro o _ _ _
  obtain ⟨a, t, hp, ht⟩ := h o
  exact ⟨rfl, hp ▸ .ok a ht⟩

end Lift

namespace Reader

variable {A P : Token → Prop} {n b b' : Nat}

/-- Even a token that ends the file may be expected. -/
theorem coincide_expect_any (k : Kind) : CoincideIf A P 0 n (expect k) (expect k) :=
  coincide_kind fun _ => .ite (fun _ => coincide_next) fun _ => coincide_unexpected _

theorem coincide_expr (hb : n ≤ b) (hb' : n ≤ b') (objects : Bool) :
    Coincide A 1 n (expr b objects) (expr b' objects) :=
  coincide_expression (fun _ _ _ => rfl) hb hb'

theorem coincide_openBlock : Coincide A 1 n openBlock openBlock :=
  coincide_accept (by decide) (.pure _) <|
    coincide_accept (by decide) (.pure _) (coincide_unexpected _)

/-! ### Blocks -/

section Blocks

variable {α : Type} {statement statement' : Reader Stmt} {item item' : Reader α} {close : Kind}

/-- One more statement, or an empty one. -/
def statementsRound (close : Kind) (statement : Reader Stmt) (rest : Reader (List Stmt)) :
    Reader (List Stmt) := do
  let next ← Parser.kind
  if next = close ∨ next = .endOfFile then return []
  else if ← accept (.symbol .semicolon) then rest
  else
    let first ← statement
    return first :: (← rest)

/-- One more declaration, or what separates it from another. -/
def itemsRound (close : Kind) (item : Reader α) (rest : Reader (List α)) : Reader (List α) := do
  let next ← Parser.kind
  if next = close ∨ next = .endOfFile then return []
  else if next = .symbol .comma ∨ next = .symbol .semicolon then
    let _ ← Parser.next
    rest
  else
    let first ← item
    return first :: (← rest)

theorem coincide_statementsRound {rest rest' : Reader (List Stmt)}
    (hstatement : Coincide A 1 (n + 1) statement statement') (h : Coincide A 0 n rest rest') :
    Coincide A 0 (n + 1) (statementsRound close statement rest)
      (statementsRound close statement' rest') := by
  refine .lift_kind fun k => .ite (fun _ => .pure _) fun _ => ?_
  refine .lift_accept (by decide) h ?_
  exact (hstatement.bind fun first => h.bind fun _ => .pure _).weak.any

theorem coincide_itemsRound {rest rest' : Reader (List α)}
    (hitem : Coincide A 1 (n + 1) item item') (h : Coincide A 0 n rest rest') :
    Coincide A 0 (n + 1) (itemsRound close item rest) (itemsRound close item' rest') := by
  refine .lift_kind fun k => .ite (fun _ => .pure _) fun _ => .ite (fun hk => ?_) fun _ => ?_
  · have hnext : CoincideIf A (fun t => True ∧ t.kind = k) 1 (n + 1) Parser.next Parser.next := by
      refine coincide_next_inside fun t ht => ?_
      rw [ht.2]
      rcases hk with rfl | rfl <;> decide
    exact (hnext.lift.bind fun _ => h).weak
  · exact (hitem.bind fun first => h.bind fun _ => .pure _).weak.any

theorem terminates_statementsUntil (h : Consuming 1 n statement) :
    Terminates n (fun b (_ : Unit) => statementsUntil close statement b)
      (fun _ rest _ => statementsRound close statement (rest ())) :=
  .of_round (fun _ _ => rfl) fun _ _ _ _ _ hn _ _ hrest _ =>
    coincide_statementsRound (h.coincide.mono hn) (hrest ())

theorem terminates_itemsUntil (h : Consuming 1 n item) :
    Terminates n (fun b (_ : Unit) => itemsUntil close item b)
      (fun _ rest _ => itemsRound close item (rest ())) :=
  .of_round (fun _ _ => rfl) fun _ _ _ _ _ hn _ _ hrest _ =>
    coincide_itemsRound (h.coincide.mono hn) (hrest ())

theorem coincide_statementsUntil (hb : n ≤ b) (hb' : n ≤ b')
    (h : Coincide A 1 n statement statement') :
    Coincide A 0 n (statementsUntil close statement b) (statementsUntil close statement' b') :=
  coincide_loop (fun b (_ : Unit) => statementsUntil close statement b)
    (fun b _ => statementsUntil close statement' b) (fun _ _ => rfl) (fun _ _ => rfl)
    (fun _ _ _ _ _ hn _ _ hrest _ => coincide_statementsRound (h.mono hn) (hrest ()))
    (Nat.le_refl n) hb hb' ()

theorem coincide_block (hb : n ≤ b) (hb' : n ≤ b') (h : Coincide A 1 n statement statement') :
    Coincide A 1 (n + 1) (block statement b) (block statement' b') := by
  refine coincide_openBlock.lift.bind fun close => ?_
  refine (coincide_statementsUntil hb hb' h).bind fun body => ?_
  exact (coincide_expect_any close).lift.bind fun _ => .pure _

theorem coincide_itemBlock (hb : n ≤ b) (hb' : n ≤ b') (h : Coincide A 1 n item item') :
    Coincide A 1 (n + 1) (itemBlock item b) (itemBlock item' b') := by
  have hitems (close : Kind) :
      Coincide A 0 n (itemsUntil close item b) (itemsUntil close item' b') :=
    coincide_loop (fun b (_ : Unit) => itemsUntil close item b)
      (fun b _ => itemsUntil close item' b) (fun _ _ => rfl) (fun _ _ => rfl)
      (fun _ _ _ _ _ hn _ _ hrest _ => coincide_itemsRound (h.mono hn) (hrest ()))
      (Nat.le_refl n) hb hb' ()
  refine .look (fun o => ⟨o.cursor.here, rfl⟩) fun start => ?_
  refine coincide_openBlock.lift.bind fun close => (hitems close).bind fun items => ?_
  exact (coincide_expect_any close).lift.bind fun _ => .pure _

end Blocks

/-! ### Heads of statements -/

section Heads

variable (hb : n ≤ b) (hb' : n ≤ b')
include hb hb'

theorem coincide_typeBehind (k : Kind) (hk : k ≠ .endOfFile) :
    CoincideIf A P 0 n (after k (typeExpr b)) (after k (typeExpr b')) :=
  coincide_after hk ((coincide_typeExpr hb hb').mono (Nat.sub_le _ _)).weak

theorem coincide_valueBehind (objects : Bool) :
    Coincide A 0 n (after (.symbol .equals) (expr b objects))
      (after (.symbol .equals) (expr b' objects)) :=
  coincide_after (by decide) ((coincide_expr hb hb' objects).mono (Nat.sub_le _ _)).weak

theorem coincide_binding (objects : Bool) (modifier : Modifier) :
    Coincide A 1 (n + 1) (binding b objects modifier) (binding b' objects modifier) := by
  refine (coincide_identifier _).bind fun name => ?_
  refine (coincide_typeBehind hb hb' _ (by decide)).bind fun type => ?_
  refine (coincide_valueBehind hb hb' objects).bind fun value => ?_
  exact .ite (fun _ => coincide_fail _ _) fun _ => .pure _

theorem coincide_varDecl (objects : Bool) (hP : ∀ t, P t → t.kind ≠ .endOfFile) :
    CoincideIf A P 1 (n + 1) (varDecl b objects) (varDecl b' objects) := by
  refine (coincide_next_inside hP).bind fun word => ?_
  have hdecls (isMut : Bool) : Coincide A 0 n
      (bindings b objects (modifierOf word.kind isMut))
      (bindings b' objects (modifierOf word.kind isMut)) := by
    refine (coincide_commaList hb hb' ?_).weak.bind fun _ => .pure _
    exact (coincide_binding hb hb' objects _).mono (Nat.le_succ n)
  refine .ite (fun _ => ?_) fun _ => hdecls false
  exact coincide_accept (by decide) ((hdecls true).mono (Nat.sub_le _ _)) (hdecls false)

theorem coincide_typeParams : Coincide A 0 n (typeParams b) (typeParams b') := by
  have hparam : Coincide A 1 n (typeParam b) (typeParam b') := by
    refine (coincide_identifier _).bind fun name => ?_
    exact ((coincide_typeBehind hb hb' _ (by decide)).mono (Nat.sub_le _ _)).bind fun _ => .pure _
  refine coincide_accept (by decide) ?_ (.pure _)
  refine ((coincide_commaList hb hb' hparam).mono (Nat.sub_le _ _)).weak.bind fun params => ?_
  exact (coincide_expect (by decide)).weak.bind fun _ => .pure _

theorem coincide_receiver : Coincide A 0 n (receiver b) (receiver b') := by
  refine coincide_atWord _ ?_ (.pure _)
  refine coincide_next.bind fun name => ?_
  refine (coincide_typeBehind hb hb' _ (by decide)).bind fun _ => ?_
  refine coincide_kind fun _ => .ite (fun _ => ?_) fun _ => .pure _
  exact (coincide_expect (by decide)).weak.bind fun _ => .pure _

theorem coincide_params : Coincide A 0 n (params b) (params b') := by
  have hparam : Coincide A 1 n (param b) (param b') := by
    refine (coincide_identifier _).bind fun name => ?_
    refine ((coincide_typeBehind hb hb' _ (by decide)).mono (Nat.sub_le _ _)).bind fun type => ?_
    exact ((coincide_valueBehind hb hb' true).mono (Nat.sub_le _ _)).bind fun _ => .pure _
  refine (coincide_listUntil hb hb' hparam).bind fun params => ?_
  exact (coincide_expect (by decide)).weak.bind fun _ => .pure _

theorem coincide_ret (hP : ∀ t, P t → t.kind ≠ .endOfFile) :
    CoincideIf A P 1 (n + 1) (ret b) (ret b') := by
  refine (coincide_next_inside hP).bind fun start => coincide_kind fun _ => ?_
  refine coincide_onSameLine fun _ => .ite (fun _ => ?_) fun _ => .pure _
  exact (coincide_expr hb hb' true).weak.any.bind fun _ => .pure _

theorem coincide_range : Coincide A 0 n (range b) (range b') := by
  have hcondition : Coincide A 0 n (condition b) (condition b') := (coincide_expr hb hb' false).weak
  have hstop (start : Expr) (inclusive : Bool) :
      Coincide A 0 n (rangeFrom b start inclusive) (rangeFrom b' start inclusive) := by
    refine coincide_next.bind fun _ => hcondition.bind fun stop => coincide_atWord _ ?_ (.pure _)
    exact coincide_next.bind fun _ => hcondition.bind fun _ => .pure _
  refine hcondition.bind fun start => coincide_atWord _ ?_ ?_
  · exact coincide_atWord _ (hstop start false).any (hstop start false).any
  · exact coincide_atWord _ (hstop start true).any
      ((coincide_unexpected _).bind fun inclusive => hstop start inclusive)

theorem coincide_fieldDecl : Coincide A 1 (n + 1) (fieldDecl b) (fieldDecl b') := by
  refine (coincide_identifier _).bind fun name => ?_
  have htype (optional : Bool) : Coincide A 0 n (do
      let _ ← expect (.symbol .colon)
      return ⟨name, ← typeExpr b, optional⟩ : Parser FieldDecl) (do
      let _ ← expect (.symbol .colon)
      return ⟨name, ← typeExpr b', optional⟩ : Parser FieldDecl) := by
    refine (coincide_expect (by decide)).weak.bind fun _ => ?_
    exact (coincide_typeExpr hb hb').weak.bind fun _ => .pure _
  exact coincide_accept (by decide) ((htype true).mono (Nat.sub_le _ _)) (htype false)

theorem coincide_getterHead (hP : ∀ t, P t → t.kind ≠ .endOfFile) :
    CoincideIf A P 1 (n + 1) (getterHead b) (getterHead b') := by
  refine (coincide_next_inside hP).bind fun _ => (coincide_identifier _).weak.bind fun name => ?_
  refine (coincide_expect (by decide)).weak.bind fun _ => ?_
  exact (coincide_typeExpr hb hb').weak.bind fun _ => .pure _

theorem coincide_requirement : Coincide A 1 (n + 1) (requirement b) (requirement b') := by
  refine coincide_accept (by decide) ?_ (coincide_atWord _ ?_ (coincide_unexpected _))
  · refine (coincide_identifier _).weak.bind fun name => ?_
    refine (coincide_expect (by decide)).weak.bind fun _ => ?_
    refine (coincide_receiver hb hb').bind fun _ => (coincide_params hb hb').bind fun params => ?_
    exact (coincide_typeBehind hb hb' _ (by decide)).bind fun _ => .pure _
  · exact (coincide_getterHead hb hb' fun t ht => by rw [ht]; decide).bind fun _ => .pure _

end Heads

/-! ### Jumps and loops over values -/

theorem coincide_jumpTo (make : Nat → Option Name → Span → Stmt) (loops : List Enclosing)
    (start : Span) (label : Option Name) :
    Coincide A 0 n (jumpTo make loops start label) (jumpTo make loops start label) := by
  unfold jumpTo
  dsimp only
  split
  · exact .pure _
  · exact .fails fun _ => ⟨_, rfl⟩

theorem coincide_jump (make : Nat → Option Name → Span → Stmt) (loops : List Enclosing)
    (hP : ∀ t, P t → t.kind ≠ .endOfFile) :
    CoincideIf A P 1 n (jump make loops) (jump make loops) := by
  refine (coincide_next_inside hP).bind fun start => coincide_kind fun _ => ?_
  refine coincide_onSameLine fun _ => .ite (fun _ => ?_) fun _ => (coincide_jumpTo _ _ _ _).any
  exact (coincide_identifier _).weak.bind fun label => coincide_jumpTo _ _ _ _

theorem startsIteration_stays (o : Progress) :
    ∃ v, (liftM startsIteration : Reader Bool) o = .ok (v, o) :=
  ⟨_, lift_eq_ok.2 ⟨_, startsIteration_eq o.cursor, rfl⟩⟩

section Loops

variable {body body' : Reader (List Stmt)} (hb : n ≤ b) (hb' : n ≤ b')
  (hbody : Coincide A 0 n body body')
include hb hb' hbody

theorem coincide_iteration (id : Nat) (label : Option Name) :
    Coincide A 0 n (iteration body b id label) (iteration body' b' id label) := by
  refine (coincide_identifier _).lift.weak.bind fun first => ?_
  refine (coincide_after (by decide) (coincide_identifier _).weak).lift.bind fun second => ?_
  refine (coincide_expect (by decide)).lift.weak.bind fun _ => ?_
  refine .look (fun o => ⟨_, rfl⟩) fun _ => .ite (fun _ => ?_) fun _ => ?_
  · refine coincide_next.lift.bind fun _ => (coincide_range hb hb').lift.bind fun range => ?_
    exact hbody.bind fun _ => .pure _
  · refine (coincide_expr hb hb' false).lift.weak.bind fun iterable => ?_
    exact hbody.bind fun _ => .pure _

theorem coincide_stepped (id : Nat) (label : Option Name) (init : Stmt) :
    Coincide A 0 n (stepped body b id label init) (stepped body' b' id label init) := by
  refine (coincide_expect (by decide)).lift.weak.bind fun _ => ?_
  refine (coincide_expr hb hb' false).lift.weak.bind fun test => ?_
  refine (coincide_expect (by decide)).lift.weak.bind fun _ => ?_
  refine (coincide_expr hb hb' false).lift.weak.bind fun update => ?_
  exact hbody.bind fun _ => .pure _

end Loops

/-! ### Declarations of types -/

section Declarations

variable (hb : n ≤ b) (hb' : n ≤ b')
include hb hb'

theorem coincide_structDef : Coincide A 1 (n + 1) (structDef b) (structDef b') := by
  refine (coincide_itemBlock hb hb' ?_).bind fun _ => .pure _
  exact ((coincide_fieldDecl hb hb').mono (Nat.le_succ n)).lift

theorem coincide_typeDef : Coincide A 0 n (typeDef b) (typeDef b') := by
  have hstruct : Coincide A 0 n (structDef b) (structDef b') :=
    ((coincide_structDef hb hb').mono (Nat.le_succ n)).weak
  have hcontract : Coincide A 1 n (liftM (requirement b) : Reader Requirement)
      (liftM (requirement b')) :=
    ((coincide_requirement hb hb').mono (Nat.le_succ n)).lift
  refine .lift_accept (by decide) (hstruct.mono (Nat.sub_le _ _)) ?_
  refine .lift_accept (by decide) ?_ ?_
  · refine (((coincide_itemBlock hb hb' hcontract).mono ?_).weak).bind fun _ => .pure _
    exact Nat.le_succ_of_le (Nat.sub_le n 1)
  refine .lift_accept (by decide) ?_ ?_
  · exact ((coincide_typeExpr hb hb').mono (Nat.sub_le _ _)).weak.lift
  · exact .lift_kind fun _ => .ite (fun _ => hstruct.any) fun _ => (coincide_unexpected _).lift

theorem coincide_typeDecl : Coincide A 1 (n + 1) (typeDecl b) (typeDecl b') := by
  refine (coincide_expect (by decide)).lift.bind fun _ => ?_
  refine (coincide_identifier _).lift.weak.bind fun name => ?_
  refine (coincide_typeParams hb hb').lift.bind fun params => ?_
  exact (coincide_typeDef hb hb').bind fun _ => .pure _

theorem coincide_aliasDecl : Coincide A 1 (n + 1) (aliasDecl b) (aliasDecl b') := by
  refine (coincide_expect (by decide)).lift.bind fun start => ?_
  refine (coincide_identifier _).lift.weak.bind fun name => ?_
  refine (coincide_expect (by decide)).lift.weak.bind fun _ => ?_
  refine (coincide_typeExpr hb hb').lift.weak.bind fun target => ?_
  have hlast : Coincide A 0 n (aliasOf name target (start.span.upTo target.span))
      (aliasOf name target (start.span.upTo target.span)) :=
    (CoincideIf.silent (p := addAlias name.text) fun _ => ⟨(), _, rfl, rfl⟩).bind fun _ => .pure _
  cases target with
  | named other =>
    refine .look (fun o => ⟨_, rfl⟩) fun known => .ite (fun _ => ?_) fun _ => hlast
    exact (coincide_fail _ _).lift.bind fun _ => hlast
  | _ => exact hlast

end Declarations

/-! ### Statements in one another -/

section Compound

variable {statement statement' : List Enclosing → Reader Stmt} (hb : n ≤ b) (hb' : n ≤ b')
  (h : ∀ loops, Coincide A 1 n (statement loops) (statement' loops))
include hb hb' h

theorem coincide_body (loops : List Enclosing) :
    Coincide A 0 n (block (statement loops) b) (block (statement' loops) b') :=
  ((coincide_block hb hb' (h loops)).mono (Nat.le_succ n)).weak

theorem coincide_function (isMethod : Bool) :
    Coincide A 1 (n + 1) (function statement b isMethod) (function statement' b' isMethod) := by
  refine (coincide_expect (by decide)).lift.bind fun start => ?_
  refine (coincide_identifier _).lift.weak.bind fun name => ?_
  refine (coincide_typeParams hb hb').lift.bind fun typeParams => ?_
  refine (coincide_expect (by decide)).lift.weak.bind fun _ => ?_
  have hrest (receiver : Option Name) : Coincide A 0 n
      (functionFrom statement b start.span name typeParams receiver)
      (functionFrom statement' b' start.span name typeParams receiver) := by
    refine (coincide_params hb hb').lift.bind fun params => ?_
    refine (coincide_typeBehind hb hb' _ (by decide)).lift.bind fun result => ?_
    refine (coincide_body hb hb' h []).bind fun body => ?_
    exact .look (fun o => ⟨o.cursor.last, rfl⟩) fun _ => .pure _
  refine .ite (fun _ => ?_) fun _ => hrest none
  exact (coincide_receiver hb hb').lift.bind fun receiver => hrest receiver

omit hb hb' h in
/-- One more branch. -/
def elseRound (test : Parser Expr) (body : Reader (List Stmt))
    (rest : Reader (List (Expr × List Stmt) × Option (List Stmt))) :
    Reader (List (Expr × List Stmt) × Option (List Stmt)) := do
  if ← accept (.keyword .elseWord) then
    if ← accept (.keyword .ifWord) then
      let test ← test
      let body ← body
      let (branches, otherwise) ← rest
      return ((test, body) :: branches, otherwise)
    else return ([], some (← body))
  else return ([], none)

omit hb hb' h in
theorem coincide_elseRound {test test' : Parser Expr} {body body' : Reader (List Stmt)}
    {rest rest' : Reader (List (Expr × List Stmt) × Option (List Stmt))}
    (htest : Coincide A 0 n test test') (hbody : Coincide A 0 n body body')
    (h : Coincide A 0 n rest rest') :
    Coincide A 0 (n + 1) (elseRound test body rest) (elseRound test' body' rest') := by
  refine .lift_accept (by decide) (.lift_accept (by decide) ?_ ?_) (.pure _)
  · refine (htest.mono (Nat.sub_le _ _)).lift.bind fun test => ?_
    refine (hbody.mono (Nat.sub_le _ _)).bind fun body => ?_
    exact (h.mono (Nat.sub_le _ _)).bind fun _ => .pure _
  · exact hbody.bind fun _ => .pure _

omit hb hb' h in
theorem terminates_elseTail {rule : Reader Stmt} {bound : Nat}
    (htest : Consuming 0 n (condition bound)) (hbody : Consuming 0 n (block rule bound)) :
    Terminates n (fun b (_ : Unit) => elseTail rule bound b)
      (fun _ rest _ => elseRound (condition bound) (block rule bound) (rest ())) :=
  .of_round (fun _ _ => rfl) fun _ _ _ _ _ hn _ _ hrest _ =>
    coincide_elseRound (htest.coincide.mono (Nat.le_of_lt hn))
      (hbody.coincide.mono (Nat.le_of_lt hn)) (hrest ())

theorem coincide_ifElse (loops : List Enclosing) :
    Coincide A 1 (n + 1) (ifElse (statement loops) b) (ifElse (statement' loops) b') := by
  have htest : Coincide A 0 n (condition b) (condition b') := (coincide_expr hb hb' false).weak
  have hbody := coincide_body hb hb' h loops
  have htail :
      Coincide A 0 n (elseTail (statement loops) b b) (elseTail (statement' loops) b' b') :=
    coincide_loop (fun budget (_ : Unit) => elseTail (statement loops) b budget)
      (fun budget _ => elseTail (statement' loops) b' budget) (fun _ _ => rfl) (fun _ _ => rfl)
      (fun _ _ _ _ _ hn _ _ hrest _ => coincide_elseRound (htest.mono (Nat.le_of_lt hn))
        (hbody.mono (Nat.le_of_lt hn)) (hrest ())) (Nat.le_refl n) hb hb' ()
  refine (coincide_expect (by decide)).lift.bind fun _ => htest.lift.bind fun test => ?_
  exact hbody.bind fun body => htail.bind fun _ => .pure _

omit hb hb' h in
theorem coincide_newLoop : CoincideIf A P 0 n newLoop newLoop :=
  .silent fun _ => ⟨_, _, rfl, rfl⟩

theorem coincide_whileLoop (loops : List Enclosing) :
    Coincide A 1 (n + 1) (whileLoop statement b loops) (whileLoop statement' b' loops) := by
  refine (coincide_expect (by decide)).lift.bind fun _ => coincide_newLoop.bind fun id => ?_
  refine (coincide_expr hb hb' false).lift.weak.bind fun test => ?_
  exact (coincide_body hb hb' h _).bind fun body => .pure _

omit h in
theorem coincide_testedLoop {body body' : Reader (List Stmt)} (hbody : Coincide A 0 n body body')
    (id : Nat) (label : Option Name) :
    Coincide A 0 n (testedLoop body b id label) (testedLoop body' b' id label) := by
  refine (coincide_expr hb hb' false).lift.weak.bind fun test => ?_
  refine .lift_kind fun _ => .ite (fun _ => ?_) fun _ => ?_
  · exact (coincide_stepped hb hb' hbody id label _).any
  · exact hbody.any.bind fun _ => .pure _

theorem coincide_loopHead (loops : List Enclosing) (label : Option Name) :
    Coincide A 0 n (loopHead statement b loops label) (loopHead statement' b' loops label) := by
  refine coincide_newLoop.bind fun id => .lift_kind fun first => ?_
  have hbody := coincide_body hb hb' h (⟨id, label.map (·.text)⟩ :: loops)
  refine .ite (fun _ => hbody.any.bind fun _ => .pure _) fun _ => ?_
  refine .look startsIteration_stays fun _ => .ite (fun _ => ?_) fun _ => ?_
  · exact (coincide_iteration hb hb' hbody id label).any
  refine .ite (fun hbinder => ?_) fun _ => (coincide_testedLoop hb hb' hbody id label).any
  have hfirst : ∀ t : Token, True ∧ t.kind = first → t.kind ≠ .endOfFile := by
    intro t ht he
    rw [← ht.2, he] at hbinder
    cases hbinder
  have hinit : CoincideIf A (fun t => True ∧ t.kind = first) 1 n (varDecl b false)
      (varDecl b' false) := (coincide_varDecl hb hb' false hfirst).mono (Nat.le_succ n)
  exact hinit.lift.weak.bind fun init => coincide_stepped hb hb' hbody id label init

theorem coincide_forLoop (loops : List Enclosing) :
    Coincide A 1 (n + 1) (forLoop statement b loops) (forLoop statement' b' loops) := by
  rw [forLoop_eq, forLoop_eq]
  refine (coincide_expect (by decide)).lift.bind fun _ => ?_
  refine .look (fun o => ⟨_, lift_eq_ok.2 ⟨_, startsLabel_eq o.cursor, rfl⟩⟩) fun _ => ?_
  refine .ite (fun _ => ?_) fun _ => coincide_loopHead hb hb' h loops none
  refine coincide_next.lift.bind fun _ => (coincide_identifier _).lift.weak.bind fun label => ?_
  exact coincide_loopHead hb hb' h loops (some label)

theorem coincide_implementation :
    Coincide A 1 (n + 1) (implementation statement b) (implementation statement' b') := by
  refine .lift_kind fun _ => .ite (fun _ => ?_) fun _ => ?_
  · exact (coincide_function hb hb' h true).any.bind fun _ => .pure _
  refine .lift_atWord _ ?_ (coincide_unexpected _).lift
  refine (coincide_getterHead hb hb' fun t ht => by rw [ht]; decide).lift.bind fun _ => ?_
  exact (coincide_body hb hb' h []).bind fun _ => .pure _

theorem coincide_fulfillment :
    Coincide A 1 (n + 1) (fulfillment statement b) (fulfillment statement' b') := by
  refine (coincide_expect (by decide)).lift.bind fun _ => ?_
  refine (coincide_identifier _).lift.weak.bind fun contract => ?_
  refine (coincide_expect (by decide)).lift.weak.bind fun _ => ?_
  refine (coincide_identifier _).lift.weak.bind fun target => ?_
  have hitem : Coincide A 1 n (implementation statement b) (implementation statement' b') :=
    (coincide_implementation hb hb' h).mono (Nat.le_succ n)
  exact ((coincide_itemBlock hb hb' hitem).mono (Nat.le_succ n)).weak.bind fun _ => .pure _

omit hb hb' in
/-- A statement may be an expression, so its budget exceeds the tokens ahead. -/
theorem coincide_statementWith (hb : n < b) (hb' : n < b') (loops : List Enclosing) :
    Coincide A 1 (n + 1) (statementWith statement b loops) (statementWith statement' b' loops) := by
  have hle := Nat.le_of_lt hb
  have hle' := Nat.le_of_lt hb'
  refine .lift_kind fun k => ?_
  have hfirst (hk : k ≠ .endOfFile) : ∀ t : Token, True ∧ t.kind = k → t.kind ≠ .endOfFile :=
    fun t ht => by rw [ht.2]; exact hk
  have hvar (hk : k ≠ .endOfFile) : CoincideIf A (fun t => True ∧ t.kind = k) 1 (n + 1)
      (liftM (varDecl b true) : Reader Stmt) (liftM (varDecl b' true)) :=
    (coincide_varDecl hle hle' true (hfirst hk)).lift
  split
  · exact hvar (by decide)
  · exact hvar (by decide)
  · exact hvar (by decide)
  · exact hvar (by decide)
  · exact (coincide_function hle hle' h false).any.bind fun _ => .pure _
  · exact (coincide_ret hle hle' (hfirst (by decide))).lift
  · exact (coincide_ifElse hle hle' h loops).any
  · exact (coincide_whileLoop hle hle' h loops).any
  · exact (coincide_forLoop hle hle' h loops).any
  · exact (coincide_jump .leave loops (hfirst (by decide))).lift
  · exact (coincide_jump .skip loops (hfirst (by decide))).lift
  · exact (coincide_typeDecl hle hle').any
  · exact (coincide_aliasDecl hle hle').any
  · exact (coincide_fulfillment hle hle' h).any
  · exact (coincide_expr hb hb' true).lift.any.bind fun _ => .pure _

end Compound

/-- A statement is read the same with any budget that exceeds the tokens ahead. -/
theorem coincide_statement (hb : n ≤ b) (hb' : n ≤ b') (loops : List Enclosing) :
    Coincide A 1 n (statement (b + 1) loops) (statement (b' + 1) loops) :=
  coincide_loop (fun b => statement (b + 1)) (fun b => statement (b + 1)) (fun _ _ => rfl)
    (fun _ _ => rfl) (fun _ _ _ _ _ _ hb hb' h => coincide_statementWith h (Nat.lt_succ_of_le hb)
      (Nat.lt_succ_of_le hb')) (Nat.le_refl n) hb hb' loops

theorem coincide_program (hb : n ≤ b) (hb' : n ≤ b') :
    Coincide A 0 n (program (b + 1)) (program (b' + 1)) :=
  coincide_statementsUntil (Nat.le_succ_of_le hb) (Nat.le_succ_of_le hb')
    (coincide_statement hb hb' [])

theorem terminates_statement :
    Terminates n (fun b => statement (b + 1)) (fun b rule => statementWith rule (b + 1)) :=
  .of_round (fun _ _ => rfl) fun _ _ _ _ _ _ hb hb' h =>
    coincide_statementWith h (Nat.lt_succ_of_le hb) (Nat.lt_succ_of_le hb')

end Reader

end Sable
