import Sable.Proofs.Joining.Expressions
import Sable.Proofs.Termination.Rules

/-!
# Annotations and expressions terminate

`Terminates` for each repetition in the grammar of annotations and expressions (`unionRound`,
`tierRound`, `membersRound` and others): it reads a token in every round but its last, and a rule inside
itself reads one before.
-/

namespace Sable

namespace Parser

/-! ### Annotations -/

section Types

variable {A : Token → Prop} {inner inner' member member' : Parser TypeExpr} {n b b' : Nat}

/-- One more member of a union. -/
def unionRound (member : Parser TypeExpr) (rest : Parser (List TypeExpr)) :
    Parser (List TypeExpr) := do
  if ← accept (.symbol .pipe) then
    let type ← member
    return type :: (← rest)
  else return []

/-- One more pair of brackets. -/
def bracketsRound (rest : TypeExpr → Parser TypeExpr) (type : TypeExpr) : Parser TypeExpr := do
  if (← kind) = .symbol .openBracket ∧ (← kindAt 1) = .symbol .closeBracket then
    let _ ← next
    let close ← next
    rest (.array type (type.span.upTo close.span))
  else return type

theorem coincide_unionRound {rest rest' : Parser (List TypeExpr)}
    (hmember : Coincide A 0 n member member') (h : Coincide A 0 n rest rest') :
    Coincide A 0 (n + 1) (unionRound member rest) (unionRound member' rest') := by
  refine coincide_accept (by decide) ?_ (.pure _)
  exact hmember.bind fun _ => h.bind fun _ => .pure _

theorem coincide_bracketsRound {rest rest' : TypeExpr → Parser TypeExpr}
    (h : ∀ type, Coincide A 0 n (rest type) (rest' type)) (type : TypeExpr) :
    Coincide A 0 (n + 1) (bracketsRound rest type) (bracketsRound rest' type) := by
  refine coincide_kind fun k => coincide_kindAt 1 fun k' => .ite (fun hk => ?_) fun _ => .pure _
  have hopen : CoincideIf A (fun t => True ∧ t.kind = k) 1 (n + 1) next next :=
    coincide_next_inside fun t ht => by rw [ht.2, hk.1]; decide
  exact (hopen.bind fun _ => coincide_next.bind fun _ => h _).weak

theorem terminates_unionTail (h : Consuming 0 n member) :
    Terminates n (fun b (_ : Unit) => unionTail member b)
      (fun _ rest _ => unionRound member (rest ())) :=
  .of_round (fun _ _ => rfl) fun _ _ _ _ _ hn _ _ hrest _ =>
    coincide_unionRound (h.coincide.mono (Nat.le_of_lt hn)) (hrest ())

theorem terminates_brackets : Terminates n brackets (fun _ => bracketsRound) :=
  .of_round (fun _ _ => rfl) fun _ _ _ _ _ _ _ _ hrest => coincide_bracketsRound hrest

theorem coincide_unionTail (hb : n ≤ b) (hb' : n ≤ b') (h : Coincide A 0 n member member') :
    Coincide A 0 n (unionTail member b) (unionTail member' b') :=
  coincide_loop (fun b (_ : Unit) => unionTail member b) (fun b _ => unionTail member' b)
    (fun _ _ => rfl) (fun _ _ => rfl) (fun _ _ _ _ _ hn _ _ hrest _ =>
      coincide_unionRound (h.mono (Nat.le_of_lt hn)) (hrest ())) (Nat.le_refl n) hb hb' ()

theorem coincide_brackets (hb : n ≤ b) (hb' : n ≤ b') (type : TypeExpr) :
    Coincide A 0 n (brackets b type) (brackets b' type) :=
  coincide_loop brackets brackets (fun _ _ => rfl) (fun _ _ => rfl)
    (fun _ _ _ _ _ _ _ _ hrest => coincide_bracketsRound hrest) (Nat.le_refl n) hb hb' type

theorem coincide_simpleType (hb : n ≤ b) (hb' : n ≤ b') (h : Coincide A 1 n inner inner') :
    Coincide A 1 (n + 1) (simpleType inner b) (simpleType inner' b') := by
  refine coincide_kind fun k => ?_
  split
  · refine (coincide_identifier _).bind fun name => ?_
    cases Primitive.ofName? name.text with
    | some type => exact .pure _
    | none =>
      refine coincide_accept (by decide) ?_ (.pure _)
      refine ((coincide_commaList hb hb' h).mono (by omega)).weak.bind fun _ => ?_
      exact (coincide_expect (by decide)).weak.bind fun _ => .pure _
  · refine (coincide_next_inside fun t ht => by rw [ht.2]; decide).bind fun start => ?_
    refine (coincide_expect (by decide)).weak.bind fun _ => ?_
    refine (coincide_listUntil hb hb' h).bind fun _ => ?_
    refine (coincide_expect (by decide)).weak.bind fun _ => ?_
    refine (coincide_after (by decide) (h.mono (by omega)).weak).bind fun _ => ?_
    exact coincide_lastSpan fun _ => .pure _
  · refine (coincide_next_inside fun t ht => by rw [ht.2]; decide).bind fun _ => ?_
    refine h.weak.bind fun type => ?_
    exact (coincide_expect (by decide)).weak.bind fun _ => .pure _
  · exact coincide_unexpected _

theorem coincide_unionType (hb : n ≤ b) (hb' : n ≤ b') (h : Coincide A 1 n inner inner') :
    Coincide A 1 (n + 1) (unionType inner b) (unionType inner' b') := by
  have hbracket : Coincide A 1 (n + 1) (bracketType inner b) (bracketType inner' b') :=
    (coincide_simpleType hb hb' h).bind fun type => coincide_brackets hb hb' type
  refine hbracket.bind fun first => coincide_kind fun k => .ite (fun _ => ?_) fun _ => .pure _
  refine (coincide_unionTail hb hb' (hbracket.mono (Nat.le_succ n)).weak).any.bind fun _ => ?_
  exact coincide_lastSpan fun _ => .pure _

theorem coincide_typeExpr (hb : n ≤ b) (hb' : n ≤ b') :
    Coincide A 1 n (typeExpr b) (typeExpr b') :=
  coincide_loop (fun b (_ : Unit) => typeExpr b) (fun b _ => typeExpr b) (fun _ _ => rfl)
    (fun _ _ => rfl) (fun _ _ _ _ _ _ hb hb' h _ => coincide_unionType hb hb' (h ()))
    (Nat.le_refl n) hb hb' ()

theorem terminates_typeExpr :
    Terminates n (fun b (_ : Unit) => typeExpr b) (fun b rule _ => unionType (rule ()) b) :=
  .of_round (fun _ _ => rfl) fun _ _ _ _ _ _ hb hb' h _ => coincide_unionType hb hb' (h ())

end Types

/-! ### Operators -/

section Operators

variable {A : Token → Prop} {operand operand' rest rest' : Parser Expr} {n b b' : Nat}

/-- One more operator of a tier with its operand. -/
def tierRound (operand : Parser Expr) (tier : List (Kind × BinaryOp)) (rest : Expr → Parser Expr)
    (left : Expr) : Parser Expr := do
  match tier.lookup (← kind) with
  | none => return left
  | some op =>
    let _ ← next
    let right ← operand
    rest (.binary op left right)

/-- One operand, and the rest behind a power sign. -/
def powersRound (operand rest : Parser Expr) : Parser Expr := do
  let base ← operand
  if ← accept (.symbol .power) then return .binary .pow base (← rest)
  else return base

/-- One sign, or the operand. -/
def signedRound (operand rest : Parser Expr) : Parser Expr := do
  match UnaryOp.ofKind? (← kind) with
  | none => operand
  | some op =>
    let start := (← next).span
    let inner ← rest
    return .unary op inner (start.upTo inner.span)

/-- An operator that ended the file would still have an operand behind it. -/
theorem coincide_tierRound {operators : List (Kind × BinaryOp)} {rest rest' : Expr → Parser Expr}
    (hoperand : Coincide A 1 (n + 1) operand operand') (h : ∀ e, Coincide A 0 n (rest e) (rest' e))
    (left : Expr) :
    Coincide A 0 (n + 1) (tierRound operand operators rest left)
      (tierRound operand' operators rest' left) := by
  refine coincide_kind fun k => ?_
  cases operators.lookup k with
  | none => exact .pure left
  | some op => exact coincide_next.bind fun _ => (hoperand.bind fun right => h _).weak

theorem coincide_powersRound (hoperand : Coincide A 1 (n + 1) operand operand')
    (h : Coincide A 0 n rest rest') :
    Coincide A 1 (n + 1) (powersRound operand rest) (powersRound operand' rest') := by
  refine hoperand.bind fun base => coincide_accept (by decide) ?_ (.pure _)
  exact (h.mono (Nat.sub_le _ _)).bind fun _ => .pure _

theorem coincide_signedRound (hoperand : Coincide A 1 (n + 1) operand operand')
    (h : Coincide A 0 n rest rest') :
    Coincide A 1 (n + 1) (signedRound operand rest) (signedRound operand' rest') := by
  refine coincide_kind fun k => ?_
  cases hop : UnaryOp.ofKind? k with
  | none => exact hoperand.any
  | some op =>
    have hsign : CoincideIf A (fun t => True ∧ t.kind = k) 1 (n + 1) next next := by
      refine coincide_next_inside fun t ht he => ?_
      rw [← ht.2, he] at hop
      cases hop
    exact hsign.bind fun _ => h.bind fun _ => .pure _

theorem terminates_tierTail (operators : List (Kind × BinaryOp)) (h : Consuming 1 n operand) :
    Terminates n (tierTail operand operators) (fun _ => tierRound operand operators) :=
  .of_round (fun _ _ => rfl) fun _ _ _ _ _ hn _ _ hrest =>
    coincide_tierRound (h.coincide.mono hn) hrest

theorem terminates_powers (h : Consuming 1 n operand) :
    Terminates n (fun b (_ : Unit) => powers operand b)
      (fun _ rest _ => powersRound operand (rest ())) :=
  .of_round (fun _ _ => rfl) fun _ _ _ _ _ hn _ _ hrest _ =>
    coincide_powersRound (h.coincide.mono hn) (hrest ()).weak

theorem terminates_signed (h : Consuming 1 n operand) :
    Terminates n (fun b (_ : Unit) => signed operand b)
      (fun _ rest _ => signedRound operand (rest ())) :=
  .of_round (fun _ _ => rfl) fun _ _ _ _ _ hn _ _ hrest _ =>
    coincide_signedRound (h.coincide.mono hn) (hrest ()).weak

theorem coincide_tier (operators : List (Kind × BinaryOp)) (hb : n ≤ b) (hb' : n ≤ b')
    (h : Coincide A 1 (n + 1) operand operand') :
    Coincide A 1 (n + 1) (tier b operators operand) (tier b' operators operand') := by
  refine h.bind fun left => ?_
  exact coincide_loop (tierTail operand operators) (tierTail operand' operators) (fun _ _ => rfl)
    (fun _ _ => rfl) (fun _ _ _ _ _ hn _ _ hrest =>
      coincide_tierRound (h.mono (Nat.le_succ_of_le hn)) hrest) (Nat.le_refl n) hb hb' left

theorem coincide_tiers (hb : n ≤ b) (hb' : n ≤ b') (h : Coincide A 1 (n + 1) operand operand') :
    ∀ tiers : List (List (Kind × BinaryOp)),
      Coincide A 1 (n + 1) (tiers.foldr (tier b) operand) (tiers.foldr (tier b') operand')
  | [] => h
  | operators :: tiers => coincide_tier operators hb hb' (coincide_tiers hb hb' h tiers)

/-- Where nothing is ahead, a rule that has to read something fails. -/
theorem eq_error_of_distance {r : Except SyntaxError (Expr × Cursor)} {c : Cursor}
    (h : Consumes 1 c r) (hc : distance c < 1) : ∃ e, r = .error e := by
  cases hr : r with
  | error e => exact ⟨e, rfl⟩
  | ok x =>
    have := h.distance_le hr
    omega

/-- The last operand needs no budget of its own. -/
theorem coincide_powers : ∀ {n b b' : Nat}, n ≤ b → n ≤ b' →
    Coincide A 1 (n + 1) operand operand' →
    Coincide A 1 (n + 1) (powers operand b) (powers operand' b')
  | 0, b, b', _, _, h => by
    intro c ha hc hn
    obtain ⟨heq, hcons⟩ := h c ha hc hn
    obtain ⟨e, he⟩ := eq_error_of_distance hcons hn
    rw [Seam.powers_error he b, Seam.powers_error (heq ▸ he) b']
    exact ⟨rfl, .error e⟩
  | n + 1, b + 1, b' + 1, hb, hb', h => by
    refine coincide_powersRound h ?_
    exact (coincide_powers (Nat.le_of_succ_le_succ hb) (Nat.le_of_succ_le_succ hb')
      (h.mono (Nat.le_succ _))).weak

theorem coincide_signed : ∀ {n b b' : Nat}, n ≤ b → n ≤ b' →
    Coincide A 1 (n + 1) operand operand' →
    Coincide A 1 (n + 1) (signed operand b) (signed operand' b')
  | 0, b, b', _, _, h => by
    intro c ha hc hn
    obtain ⟨heq, hcons⟩ := h c ha hc hn
    obtain ⟨e, he⟩ := eq_error_of_distance hcons hn
    have hend : c.here.kind = .endOfFile := by
      refine Decidable.not_not.1 fun hk => ?_
      have := distance_advance hk
      omega
    have hsign : UnaryOp.ofKind? c.here.kind = none := by rw [hend]; rfl
    rw [Seam.signed_error hsign he b, Seam.signed_error hsign (heq ▸ he) b']
    exact ⟨rfl, .error e⟩
  | n + 1, b + 1, b' + 1, hb, hb', h => by
    refine coincide_signedRound h ?_
    exact (coincide_signed (Nat.le_of_succ_le_succ hb) (Nat.le_of_succ_le_succ hb')
      (h.mono (Nat.le_succ _))).weak

end Operators

/-! ### Operands -/

section Operands

variable {A : Token → Prop} {nested nested' : Bool → Parser Expr} {n b b' : Nat}

/-- One more member or call. -/
def membersRound (nested : Bool → Parser Expr) (budget : Nat) (rest : Expr → Parser Expr)
    (e : Expr) : Parser Expr := do
  if ← accept (.symbol .dot) then
    let name ← identifier "a property name"
    rest (.field e name (e.span.upTo name.span))
  else if (← kind) = .symbol .openBracket ∧ (← onSameLine) then
    let _ ← next
    let key ← nested true
    let close ← expect (.symbol .closeBracket)
    rest (.index e key (e.span.upTo close.span))
  else if (← kind) = .symbol .openParen ∧ (← onSameLine) then
    let _ ← next
    let args ← listUntil (.symbol .closeParen) (nested true) budget
    let close ← expect (.symbol .closeParen)
    rest (.call e args (e.span.upTo close.span))
  else return e

/-- One more property. -/
def propertiesRound (nested : Bool → Parser Expr) (rest : Parser (List (Name × Option Expr))) :
    Parser (List (Name × Option Expr)) := do
  if (← kind) = .symbol .closeBrace then return []
  let name ← identifier "a property name"
  let value ← after (.symbol .colon) (nested true)
  let comma ← accept (.symbol .comma)
  if comma ∨ (← kind) = .identifier then
    return (name, value) :: (← rest)
  else return [(name, value)]

theorem coincide_membersRound {rest rest' : Expr → Parser Expr} (hb : n ≤ b) (hb' : n ≤ b')
    (hnested : Coincide A 1 n (nested true) (nested' true))
    (h : ∀ e, Coincide A 0 n (rest e) (rest' e)) (e : Expr) :
    Coincide A 0 (n + 1) (membersRound nested b rest e) (membersRound nested' b' rest' e) := by
  have hopen (k : Kind) (hk : k ≠ .endOfFile) :
      CoincideIf A (fun t => (True ∧ t.kind = k)) 1 (n + 1) next next :=
    coincide_next_inside fun t ht => by rw [ht.2]; exact hk
  refine coincide_accept (by decide) ?_ ?_
  · exact (coincide_identifier _).weak.bind fun name => h _
  refine coincide_kind fun k => coincide_onSameLine fun _ => .ite (fun hk => ?_) fun _ => ?_
  · refine ((hopen k (by rw [hk.1]; decide)).bind fun _ => ?_).weak
    refine hnested.weak.bind fun key => ?_
    exact (coincide_expect (by decide)).weak.bind fun close => h _
  refine coincide_kind fun k' => coincide_onSameLine fun _ => .ite (fun hk => ?_) fun _ => .pure _
  refine (((hopen k' (by rw [hk.1]; decide)).imp fun t ht => ⟨trivial, ht.2⟩).bind fun _ => ?_).weak
  refine (coincide_listUntil hb hb' hnested).bind fun args => ?_
  exact (coincide_expect (by decide)).weak.bind fun close => h _

theorem coincide_propertiesRound {rest rest' : Parser (List (Name × Option Expr))}
    (hnested : Coincide A 0 n (nested true) (nested' true)) (h : Coincide A 0 n rest rest') :
    Coincide A 0 (n + 1) (propertiesRound nested rest) (propertiesRound nested' rest') := by
  refine coincide_kind fun _ => .ite (fun _ => .pure _) fun _ => ?_
  refine ((coincide_identifier _).bind fun name => ?_).weak
  refine (coincide_after (by decide) (hnested.mono (Nat.sub_le _ _))).bind fun value => ?_
  have hmore (comma : Bool) : Coincide A 0 n (do
      if comma ∨ (← kind) = .identifier then return (name, value) :: (← rest)
      else return [(name, value)]) (do
      if comma ∨ (← kind) = .identifier then return (name, value) :: (← rest')
      else return [(name, value)]) :=
    coincide_kind fun _ => .ite (fun _ => h.any.bind fun _ => .pure _) fun _ => .pure _
  exact coincide_accept (by decide) ((hmore true).mono (Nat.sub_le _ _)) (hmore false)

theorem terminates_members (h : Consuming 1 n (nested true)) :
    Terminates n (members nested) (membersRound nested) :=
  .of_round (fun _ _ => rfl) fun _ _ _ _ _ hn hb hb' hrest =>
    coincide_membersRound hb hb' (h.coincide.mono (Nat.le_of_lt hn)) hrest

theorem terminates_properties (h : Consuming 0 n (nested true)) :
    Terminates n (fun b (_ : Unit) => properties nested b)
      (fun _ rest _ => propertiesRound nested (rest ())) :=
  .of_round (fun _ _ => rfl) fun _ _ _ _ _ hn _ _ hrest _ =>
    coincide_propertiesRound (h.coincide.mono (Nat.le_of_lt hn)) (hrest ())

theorem coincide_members (hb : n ≤ b) (hb' : n ≤ b')
    (h : Coincide A 1 n (nested true) (nested' true)) (e : Expr) :
    Coincide A 0 n (members nested b e) (members nested' b' e) :=
  coincide_loop (members nested) (members nested') (fun _ _ => rfl) (fun _ _ => rfl)
    (fun _ _ _ _ _ hn hb hb' hrest =>
      coincide_membersRound hb hb' (h.mono (Nat.le_of_lt hn)) hrest) (Nat.le_refl n) hb hb' e

theorem coincide_objectBody (hb : n ≤ b) (hb' : n ≤ b')
    (h : Coincide A 1 n (nested true) (nested' true)) (struct : Option Name)
    (typeArgs : List TypeExpr) (start : Span) :
    Coincide A 1 (n + 1) (objectBody nested b struct typeArgs start)
      (objectBody nested' b' struct typeArgs start) := by
  have hproperties : Coincide A 0 n (properties nested b) (properties nested' b') :=
    coincide_loop (fun b (_ : Unit) => properties nested b) (fun b _ => properties nested' b)
      (fun _ _ => rfl) (fun _ _ => rfl) (fun _ _ _ _ _ hn _ _ hrest _ =>
        coincide_propertiesRound (h.mono (Nat.le_of_lt hn)).weak (hrest ()))
      (Nat.le_refl n) hb hb' ()
  refine (coincide_expect (by decide)).bind fun _ => hproperties.bind fun props => ?_
  exact (coincide_expect (by decide)).weak.bind fun _ => .pure _

theorem coincide_genericHead (hb : n ≤ b) (hb' : n ≤ b') :
    Coincide A 1 (n + 1) (genericHead b) (genericHead b') := by
  refine (coincide_identifier _).bind fun name => coincide_next.bind fun _ => ?_
  refine (coincide_commaList hb hb' (coincide_typeExpr hb hb')).weak.bind fun args => ?_
  refine (coincide_expect (by decide)).weak.bind fun _ => ?_
  exact coincide_kind fun _ => .ite (fun _ => .pure _) fun _ => coincide_unexpected _

theorem coincide_genericHead? (hb : n ≤ b) (hb' : n ≤ b') :
    Coincide A 0 (n + 1) (genericHead? b) (genericHead? b') := by
  intro c ha hc hn
  obtain ⟨heq, hcons⟩ := coincide_genericHead hb hb' c ha hc hn
  unfold genericHead?
  rw [← heq]
  cases hr : genericHead b c with
  | error e => exact ⟨rfl, .ok none rfl⟩
  | ok x =>
    refine ⟨rfl, fun head t ht => ?_⟩
    cases ht
    obtain ⟨used, hu, -, hk⟩ := hcons x.1 x.2 hr
    exact ⟨used, hu, Nat.zero_le _, hk⟩

theorem coincide_named (hb : n ≤ b) (hb' : n ≤ b')
    (h : Coincide A 1 n (nested true) (nested' true)) (objects : Bool) :
    Coincide A 1 (n + 1) (named nested b objects) (named nested' b' objects) := by
  have hobject := coincide_objectBody hb hb' h
  have hname (second : Kind) : Coincide A 1 (n + 1) (plainName nested b objects second)
      (plainName nested' b' objects second) := by
    refine (coincide_identifier _).bind fun name => .ite (fun _ => ?_) fun _ => .pure _
    exact ((hobject _ _ _).mono (Nat.le_succ n)).weak
  refine coincide_kindAt 1 fun second => .ite (fun _ => ?_) fun _ => hname second
  refine (coincide_genericHead? hb hb').bind_right fun head => ?_
  cases head with
  | some head => exact hobject _ _ _
  | none => exact hname second

end Operands

/-! ### Whole expressions -/

section Expressions

variable {A : Token → Prop} {reader reader' : TextReader} {nested nested' : Bool → Parser Expr}
  {n b b' : Nat}
  (hreader : ∀ t, A t → t.kind = .text → reader t.text t.span = reader' t.text t.span)
include hreader

theorem coincide_primary (hb : n ≤ b) (hb' : n ≤ b')
    (h : Coincide A 1 n (nested true) (nested' true)) (objects : Bool) :
    Coincide A 1 (n + 1) (primary reader nested b objects)
      (primary reader' nested' b' objects) := by
  refine coincide_peek fun x hx => ?_
  have hnext (hk : x.kind ≠ .endOfFile) :
      CoincideIf A (fun t => True ∧ t = x) 1 (n + 1) next next :=
    coincide_next_inside fun t ht => by rw [ht.2]; exact hk
  generalize hk : x.kind = k at hnext
  split
  · refine (hnext (by decide)).bind fun _ => ?_
    cases Number.Decimal.ofText? x.text with
    | some value => exact .pure _
    | none => exact coincide_fail _ _
  · refine (hnext (by decide)).bind fun _ => ?_
    rw [hreader x (hx (by rw [hk]; decide)) hk]
    cases reader' x.text x.span with
    | ok e => exact .pure e
    | error e => exact .fails fun _ => ⟨e, rfl⟩
  · exact (coincide_named hb hb' h objects).any
  · exact .ite (fun _ => (coincide_objectBody hb hb' h _ _ _).any) fun _ => coincide_unexpected _
  · refine (hnext (by decide)).bind fun _ => (coincide_listUntil hb hb' h).bind fun _ => ?_
    exact (coincide_expect (by decide)).weak.bind fun _ => .pure _
  · refine (hnext (by decide)).bind fun _ => h.weak.bind fun _ => ?_
    exact (coincide_expect (by decide)).weak.bind fun _ => .pure _
  · exact coincide_unexpected _

theorem coincide_operation (hb : n ≤ b) (hb' : n ≤ b')
    (h : Coincide A 1 n (nested true) (nested' true)) (objects : Bool) :
    Coincide A 1 (n + 1) (operation reader nested b objects)
      (operation reader' nested' b' objects) := by
  have hchain : Coincide A 1 (n + 1)
      (primary reader nested b objects >>= members nested b)
      (primary reader' nested' b' objects >>= members nested' b') :=
    (coincide_primary hreader hb hb' h objects).bind fun e => coincide_members hb hb' h e
  have hoperand := coincide_powers hb hb' (coincide_signed hb hb' hchain)
  exact coincide_tiers hb hb' hoperand BinaryOp.tiers

theorem coincide_assignment (hb : n ≤ b) (hb' : n ≤ b')
    (h : ∀ objects, Coincide A 1 n (nested objects) (nested' objects)) (objects : Bool) :
    Coincide A 1 (n + 1) (assignment reader nested b objects)
      (assignment reader' nested' b' objects) := by
  refine (coincide_operation hreader hb hb' (h true) objects).bind fun left => ?_
  refine coincide_kind fun k => ?_
  cases assignmentOf? k with
  | none => exact .pure left
  | some compound =>
    refine coincide_next.bind fun sign => .ite (fun _ => ?_) fun _ => coincide_fail _ _
    refine (h objects).weak.bind fun value => ?_
    cases compound with
    | none => exact .pure _
    | some op => exact .pure _

/-- An expression is read the same with any budget for the tokens ahead, by any reader of the
literals ahead. -/
theorem coincide_expression {objects : Bool} (hb : n ≤ b) (hb' : n ≤ b') :
    Coincide A 1 n (expression reader b objects) (expression reader' b' objects) :=
  coincide_loop (expression reader) (expression reader') (fun _ _ => rfl) (fun _ _ => rfl)
    (fun _ _ _ _ _ _ hb hb' h => coincide_assignment hreader hb hb' h)
    (Nat.le_refl n) hb hb' objects

theorem coincide_wholeExpression (hb : n ≤ b) (hb' : n ≤ b') :
    Coincide A 1 n (wholeExpression reader b) (wholeExpression reader' b') := by
  refine (coincide_expression hreader hb hb').bind fun e => ?_
  exact coincide_kind fun _ => .ite (fun _ => .pure _) fun _ => coincide_unexpected _

end Expressions

theorem terminates_expression (reader : TextReader) (n : Nat) :
    Terminates n (expression reader) (fun b rule => assignment reader rule b) :=
  .of_round (fun _ _ => rfl) fun _ _ _ _ _ _ hb hb' h =>
    coincide_assignment (fun _ _ _ => rfl) hb hb' h

end Parser

end Sable
