import Sable.Proofs.Joining.Statements

/-!
# Programs joined by a semicolon

Two programs with a semicolon between them are read as the statements of the first and then those of the
second with `Stmt.renumber`. The first stops at the semicolon (`Join.Stops`), and reading the second
does not depend on the token before it (`Fresh`).
-/

namespace Sable

open Sable.Parser

/-! ### Rules that do not look behind -/

section Fresh

variable {α β : Type} {p q : Parser α} {k : Kind}

/-- In front of a token, `p` does not go by the place of the token read last. -/
def Parser.Fresh (p : Parser α) : Prop :=
  ∀ (t : Token) (rest : List Token) (last last' : Span), t.kind ≠ .endOfFile →
    p ⟨last, t :: rest⟩ = p ⟨last', t :: rest⟩

namespace Parser

theorem Fresh.bind {f : α → Parser β} (hp : Fresh p) : Fresh (p >>= f) := by
  intro t rest last last' ht
  show (p _ >>= _) = (p _ >>= _)
  rw [hp t rest last last' ht]

theorem Fresh.ite {C : Prop} [Decidable C] (hp : Fresh p) (hq : Fresh q) :
    Fresh (if C then p else q) := by
  split
  · exact hp
  · exact hq

theorem Fresh.peek {f : Token → Parser β} (hf : ∀ t, Fresh (f t)) : Fresh (peek >>= f) :=
  fun t rest last last' ht => hf t t rest last last' ht

theorem Fresh.kind {f : Kind → Parser β} (hf : ∀ k, Fresh (f k)) : Fresh (kind >>= f) :=
  fun t rest last last' ht => hf t.kind t rest last last' ht

theorem Fresh.kindAt {ahead : Nat} {f : Kind → Parser β} (hf : ∀ k, Fresh (f k)) :
    Fresh (kindAt ahead >>= f) :=
  fun t rest last last' ht => hf _ t rest last last' ht

theorem Fresh.unexpected (what : String) : Fresh (unexpected what : Parser α) :=
  fun _ _ _ _ _ => rfl

theorem Fresh.next : Fresh next := by
  intro t rest last last' ht
  have hadvance (last : Span) : Cursor.advance ⟨last, t :: rest⟩ = ⟨t.span, rest⟩ := if_neg ht
  show Except.ok (t, Cursor.advance _) = Except.ok (t, Cursor.advance _)
  rw [hadvance, hadvance]

theorem Fresh.expect : Fresh (expect k) :=
  .kind fun _ => .ite .next (.unexpected _)

theorem Fresh.identifier (what : String) : Fresh (identifier what) :=
  .kind fun _ => .ite (.bind .next) (.unexpected _)

/-! ### Expressions -/

/-- Where no generic instance begins, the name is read again from where the rule started. -/
theorem Fresh.genericHead? {budget : Nat} {f : Option (Name × List TypeExpr) → Parser β}
    (hf : Fresh (f none)) : Fresh (genericHead? budget >>= f) := by
  intro t rest last last' ht
  have hhead : Fresh (genericHead budget) := .bind (.identifier _)
  show (Parser.genericHead? budget _ >>= _) = (Parser.genericHead? budget _ >>= _)
  rw [Parser.genericHead?, Parser.genericHead?, hhead t rest last last' ht]
  cases genericHead budget ⟨last', t :: rest⟩ with
  | ok x => rfl
  | error e => exact hf t rest last last' ht

theorem fresh_named (nested : Bool → Parser Expr) (budget : Nat) (objects : Bool) :
    Fresh (named nested budget objects) := by
  refine .kindAt fun second => ?_
  have hplain : Fresh (plainName nested budget objects second) := .bind (.identifier _)
  exact .ite (.genericHead? hplain) hplain

theorem fresh_primary (reader : TextReader) (nested : Bool → Parser Expr) (budget : Nat)
    (objects : Bool) : Fresh (primary reader nested budget objects) := by
  refine .peek fun t => ?_
  split
  · exact .bind .next
  · exact .bind .next
  · exact fresh_named nested budget objects
  · exact .ite (.bind .expect) (.unexpected _)
  · exact .bind .next
  · exact .bind .next
  · exact .unexpected _

theorem fresh_signed {p : Parser Expr} (hp : Fresh p) :
    ∀ budget, Fresh (signed p budget)
  | 0 => hp
  | budget + 1 => by
    refine .kind fun k => ?_
    split
    · exact hp
    · exact .bind .next

theorem fresh_powers {p : Parser Expr} (hp : Fresh p) : ∀ budget, Fresh (powers p budget)
  | 0 => hp
  | _ + 1 => .bind hp

theorem fresh_tiers {p : Parser Expr} (hp : Fresh p) (budget : Nat) :
    ∀ tiers, Fresh (List.foldr (tier budget) p tiers)
  | [] => hp
  | _ :: tiers => .bind (fresh_tiers hp budget tiers)

theorem fresh_expression (reader : TextReader) (objects : Bool) :
    ∀ budget, Fresh (expression reader budget objects)
  | 0 => .unexpected _
  | budget + 1 => by
    have hoperand : Fresh (operand reader (expression reader budget) budget objects) :=
      fresh_powers (fresh_signed (.bind (fresh_primary reader _ budget objects)) budget) budget
    exact .bind (fresh_tiers hoperand budget BinaryOp.tiers)

end Parser

/-- The same of a rule that reads statements. -/
def Reader.Fresh (p : Reader α) : Prop :=
  ∀ (t : Token) (rest : List Token) (last last' : Span) (loops : Nat) (aliases : List String),
    t.kind ≠ .endOfFile → p ⟨⟨last, t :: rest⟩, loops, aliases⟩ = p ⟨⟨last', t :: rest⟩, loops, aliases⟩

namespace Reader

theorem Fresh.lift (hp : p.Fresh) : Fresh (liftM p) := by
  intro t rest last last' loops aliases ht
  show onCursor p _ = onCursor p _
  simp only [onCursor, hp t rest last last' ht]

theorem Fresh.bind {p : Reader α} {f : α → Reader β} (hp : Fresh p) : Fresh (p >>= f) := by
  intro t rest last last' loops aliases ht
  show (p _ >>= _) = (p _ >>= _)
  rw [hp t rest last last' loops aliases ht]

theorem Fresh.kind {f : Kind → Reader β} (hf : ∀ k, Fresh (f k)) : Fresh (liftM Parser.kind >>= f) :=
  fun t rest last last' loops aliases ht => hf t.kind t rest last last' loops aliases ht

theorem fresh_statementWith (rule : List Enclosing → Reader Stmt) (budget : Nat)
    (loops : List Enclosing) : Fresh (statementWith rule budget loops) := by
  have hword {k : Kind} {f : Token → Reader Stmt} : Fresh (do f (← expect k)) := .bind (.lift .expect)
  refine .kind fun first => ?_
  split
  · exact .lift (.bind .next)
  · exact .lift (.bind .next)
  · exact .lift (.bind .next)
  · exact .lift (.bind .next)
  · exact .bind (.bind (.lift .expect))
  · exact .lift (.bind .next)
  · exact hword
  · exact hword
  · exact hword
  · exact .lift (.bind .next)
  · exact .lift (.bind .next)
  · exact hword
  · exact hword
  · exact hword
  · exact .bind (.lift (fresh_expression _ _ _))

theorem fresh_statement (loops : List Enclosing) : ∀ budget, Fresh (statement budget loops)
  | 0 => .lift (.unexpected _)
  | budget + 1 => fresh_statementWith (statement budget) budget loops

/-- Nothing that was read before the statements changes them. -/
theorem statementsUntil_last {close : Kind} {rule : Reader Stmt} (h : Fresh rule) {budget : Nat}
    {tokens : List Token} (hne : tokens ≠ []) {last : Span} (last' : Span) {loops : Nat}
    {aliases : List String} {body : List Stmt} {u : Progress}
    (hu : statementsUntil close rule budget ⟨⟨last, tokens⟩, loops, aliases⟩ = .ok (body, u)) :
    ∃ u', statementsUntil close rule budget ⟨⟨last', tokens⟩, loops, aliases⟩ = .ok (body, u') := by
  obtain ⟨t, rest, rfl⟩ := List.exists_cons_of_ne_nil hne
  cases budget with
  | zero =>
    cases hu
    exact ⟨_, rfl⟩
  | succ budget =>
    rw [statementsUntil_succ] at hu ⊢
    have hhere (last : Span) : Cursor.here ⟨last, t :: rest⟩ = t := rfl
    rw [hhere] at hu ⊢
    by_cases hend : t.kind = .endOfFile
    · rw [if_pos (.inr hend)] at hu ⊢
      cases hu
      exact ⟨_, rfl⟩
    -- a statement begins at a token and forgets what was read before it
    have hfresh : Fresh (do
        let first ← rule
        return first :: (← statementsUntil close rule budget) : Reader (List Stmt)) := .bind h
    have hadvance (last : Span) : Cursor.advance ⟨last, t :: rest⟩ = ⟨t.span, rest⟩ := if_neg hend
    split at hu
    · cases hu
      rw [if_pos ‹_›]
      exact ⟨_, rfl⟩
    · rw [if_neg ‹_›]
      split at hu
      · rw [if_pos ‹_›]
        rw [hadvance] at hu ⊢
        exact ⟨u, hu⟩
      · rw [if_neg ‹_›]
        exact ⟨u, hfresh t rest last last' loops aliases hend ▸ hu⟩

end Reader

end Fresh

/-! ### Joined programs -/

theorem Cursor.ofTokens_of_ne {tokens : List Token} (h : ∀ t ∈ tokens, t.kind ≠ .endOfFile) :
    ∃ (last : Span) (finish : Token), finish.kind = .endOfFile ∧
      Cursor.ofTokens tokens = ⟨last, tokens ++ [finish]⟩ := by
  unfold Cursor.ofTokens
  split
  · rename_i hnone
    rw [List.getLast?_eq_none_iff] at hnone
    subst hnone
    exact ⟨_, .endOfFile .nowhere, rfl, rfl⟩
  · rename_i t hlast
    rw [if_neg (h t (List.mem_of_getLast? hlast))]
    exact ⟨_, .endOfFile t.span, rfl, rfl⟩

/-- The number of loops that are counted is that of the loops that are read. -/
theorem Reader.loops_statementsUntil {close : Kind} {budget n : Nat} {c : Cursor} {body : List Stmt}
    {t : Progress} (h : statementsUntil close (statement budget []) n ⟨c, 0, []⟩ = .ok (body, t)) :
    t.loops = Stmt.loopCount body := by
  obtain ⟨marks, hw, ⟨n, hn, hids⟩, -, -⟩ :=
    writes_statementsUntil close (writes_statement budget []) _ _ _ _ h
  have hlength := hw.spelled.length_loops
  rw [hids, List.length_range'] at hlength
  rw [hn, hlength]
  exact Nat.zero_add _

namespace Join

open Reader Stmt

variable {j : Join} {file : String}

/-- Up to the end of the file, statements stop at the seam only. -/
theorem Stops.rest_eq_nil {m k b : Nat} {rule : Reader Stmt} {o u : Progress} {body : List Stmt}
    {ds : List AliasDecl} (h : j.Stops m k .endOfFile rule b o body u ds) : u.cursor.rest = [] := by
  rcases h.stopped with hkind | hnil
  · by_cases hr : u.cursor.rest = []
    · exact hr
    · rw [Seam.here_ended hr] at hkind
      exact absurd hkind (h.within.kind_ne hr)
  · exact hnil

section Whole

variable {last : Span} {body : List Stmt} {t u : Progress} {b n : Nat}

/-- A whole program in front of the seam stops there. -/
theorem program_stops (hb : j.tokens.length + 1 < b) (hn : j.tokens.length + 1 ≤ n)
    (h : program (j.tokens.length + 2) (j.alone ⟨⟨last, j.tokens⟩, 0, []⟩) = .ok (body, t)) :
    ∃ k u ds, u.cursor.rest = [] ∧ u.loops = loopCount body ∧
      j.Stops (j.tokens.length + 1) k .endOfFile (statement b []) n ⟨⟨last, j.tokens⟩, 0, []⟩
        body u ds := by
  have hrule : j.CarriesStmt 1 (j.tokens.length + 1) (statement (j.tokens.length + 2) [])
      (statement b []) := carries_statement [] (Nat.lt_succ_self _) hb
  have hwithin : j.Within (j.tokens.length + 1) (Cursor.mk last j.tokens) :=
    ⟨List.suffix_refl _, Nat.lt_succ_self _⟩
  obtain ⟨k, u, ds, rfl, hu⟩ := hrule.stops n (Nat.le_refl _) (Nat.le_succ _) hn hwithin h
  have hloops : (j.alone u).loops = loopCount body := loops_statementsUntil h
  exact ⟨k, u, ds, hu.rest_eq_nil, hloops, hu⟩

/-- Behind a program that ends in front of a semicolon, what follows the semicolon is read with the
loops and aliases of the program before it. -/
theorem program_semicolon (hb : j.tokens.length + 1 < b) (hn : j.tokens.length + 1 ≤ n)
    (hnext : j.next.kind = .symbol .semicolon) (hclear : j.Clear (aliases body))
    (h : program (j.tokens.length + 2) (j.alone ⟨⟨last, j.tokens⟩, 0, []⟩) = .ok (body, t)) :
    ∃ (known : List String) (left : Nat), known ⊆ (aliases body).map (·.name) ∧
      n ≤ left + j.tokens.length + 1 ∧
      statementsUntil .endOfFile (statement b []) n (j.amid ⟨⟨last, j.tokens⟩, 0, []⟩) =
        (statementsUntil .endOfFile (statement b []) left
          ⟨⟨j.next.span, j.rest⟩, loopCount body + j.loops, known ++ j.known⟩).map
            fun x => (renumberAll j.loops body ++ x.1, x.2) := by
  obtain ⟨k, u, ds, hnil, hloops, hu⟩ := program_stops hb hn h
  obtain ⟨left, hleft, hrun⟩ := hu.amid fun d hd => hclear d (hu.declared hd)
  have hlt := hu.within.lt
  obtain ⟨left, rfl⟩ : ∃ l, left = l + 1 := ⟨left - 1, by omega⟩
  have hadvance : (j.joined u.cursor).advance = ⟨j.next.span, j.rest⟩ := by
    rw [Cursor.advance, Seam.here_joined_nil hnil, if_neg (by rw [hnext]; decide), Seam.joined, hnil]
    rfl
  refine ⟨u.aliases, left, ?_, by omega, ?_⟩
  · refine List.Subset.trans hu.aliases ?_
    rw [List.append_nil]
    exact List.map_subset _ hu.declared
  · rw [hrun, statementsUntil_succ, cursor_amid, Seam.here_joined_nil hnil, hnext,
      if_neg (by decide), if_pos rfl, hadvance, ← hloops]
    rfl

/-- A program at the end of the file is read whole. -/
theorem program_end (hb : j.tokens.length + 1 < b) (hn : j.tokens.length + 1 ≤ n)
    (hnext : j.next.kind = .endOfFile) (hclear : j.Clear (aliases body))
    (h : program (j.tokens.length + 2) (j.alone ⟨⟨last, j.tokens⟩, 0, []⟩) = .ok (body, t)) :
    ∃ u, statementsUntil .endOfFile (statement b []) n (j.amid ⟨⟨last, j.tokens⟩, 0, []⟩) =
      .ok (renumberAll j.loops body, u) := by
  obtain ⟨k, u, ds, hnil, -, hu⟩ := program_stops hb hn h
  obtain ⟨left, hleft, hrun⟩ := hu.amid fun d hd => hclear d (hu.declared hd)
  have hlt := hu.within.lt
  obtain ⟨left, rfl⟩ : ∃ l, left = l + 1 := ⟨left - 1, by omega⟩
  rw [statementsUntil_succ, cursor_amid, Seam.here_joined_nil hnil, if_pos (.inl hnext)] at hrun
  refine ⟨j.amid u, hrun.trans ?_⟩
  show Except.ok (renumberAll j.loops body ++ [], _) = _
  rw [List.append_nil]

end Whole

end Join

open Reader Stmt

/-- Two programs with a semicolon between them are read as one after the other, with the loops and
jumps of the second renumbered behind the loops of the first. No alias of the second may stand for
one of the first. -/
theorem Program.ofTokens_join {file : String} {a b : List Token} {semi : Token} {A B : Program}
    (ha : ∀ t ∈ a, t.kind ≠ .endOfFile) (hb : ∀ t ∈ b, t.kind ≠ .endOfFile)
    (hsemi : semi.kind = .symbol .semicolon) (hA : Program.ofTokens file a = .ok A)
    (hB : Program.ofTokens file b = .ok B)
    (halias : ∀ x ∈ aliases A.body, ∀ y ∈ aliases B.body, y.target ≠ some x.name) :
    Program.ofTokens file (a ++ semi :: b) =
      .ok ⟨file, A.body ++ B.body.map (renumber (loopCount A.body))⟩ := by
  obtain ⟨-, tA, hA⟩ := Program.ofTokens_eq_ok.1 hA
  obtain ⟨-, tB, hB⟩ := Program.ofTokens_eq_ok.1 hB
  obtain ⟨lastA, finishA, hfinishA, hcA⟩ := Cursor.ofTokens_of_ne ha
  obtain ⟨lastB, finishB, hfinishB, hcB⟩ := Cursor.ofTokens_of_ne hb
  have hboth : ∀ t ∈ a ++ semi :: b, t.kind ≠ .endOfFile := by
    refine List.forall_mem_append.2 ⟨ha, List.forall_mem_cons.2 ⟨?_, hb⟩⟩
    rw [hsemi]
    decide
  obtain ⟨last, finish, hfinish, hc⟩ := Cursor.ofTokens_of_ne hboth
  rw [hcA, List.length_append] at hA
  rw [hcB, List.length_append] at hB
  refine Program.ofTokens_eq_ok.2 ⟨rfl, ?_⟩
  rw [hc]
  generalize hN : (a ++ semi :: b ++ [finish]).length + 1 = N
  have hlen : N = a.length + b.length + 3 := by
    simp only [← hN, List.length_append, List.length_cons, List.length_nil]
    omega
  -- the first program, up to the semicolon
  let front : Join := ⟨⟨a, finishA, semi, b ++ [finish], ha, hfinishA, by rw [hsemi]; decide⟩, 0, []⟩
  have hlenA : front.tokens.length = a.length := rfl
  obtain ⟨known, left, hknown, hleft, hfront⟩ :=
    front.program_semicolon (b := N) (n := N) (by omega) (by omega) hsemi nofun hA
  -- the second program, with the loops and aliases of the first before it
  let back : Join := ⟨⟨b, finishB, finish, [], hb, hfinishB, by rw [hfinish]; decide⟩,
    loopCount A.body, known⟩
  have hlenB : back.tokens.length = b.length := rfl
  have hclear : back.Clear (aliases B.body) := by
    intro y hy name hname
    obtain ⟨x, hx, rfl⟩ := List.mem_map.1 (hknown hname)
    exact halias x hx y hy
  obtain ⟨tB, hB⟩ := statementsUntil_last (fresh_statement [] _) (by simp) semi.span hB
  obtain ⟨u, hback⟩ := back.program_end (b := N) (n := left) (by omega) (by omega) hfinish hclear hB
  have hmeet : (⟨⟨semi.span, b ++ [finish]⟩, loopCount A.body + 0, known ++ []⟩ : Progress) =
      back.amid ⟨⟨semi.span, b⟩, 0, []⟩ := by
    simp [Join.amid, Seam.joined, back]
  have hrun : program N ⟨⟨lastA, a ++ semi :: (b ++ [finish])⟩, 0, []⟩ =
      .ok (A.body ++ B.body.map (renumber (loopCount A.body)), u) := by
    refine hfront.trans ?_
    show Except.map _ (statementsUntil _ _ left ⟨⟨semi.span, b ++ [finish]⟩, loopCount A.body + 0,
      known ++ []⟩) = _
    rw [hmeet, hback]
    show Except.ok (renumberAll 0 A.body ++ renumberAll (loopCount A.body) B.body, u) = _
    rw [renumberAll_zero, renumberAll_eq]
  rw [List.append_assoc, List.cons_append]
  exact statementsUntil_last (fresh_statement [] N) (by simp) last hrun

/-- An alias, with labelled loops and a loop inside a function behind it. -/
def aliasedLoops (name target : String) : List Token :=
  [⟨.keyword .aliasWord, "alias", .nowhere⟩, ⟨.identifier, name, .nowhere⟩,
   ⟨.symbol .equals, "=", .nowhere⟩, ⟨.identifier, target, .nowhere⟩,
   ⟨.symbol .semicolon, ";", .nowhere⟩] ++ nestedLoops

theorem aliasedLoops_join : ∃ A B : Program,
    Program.ofTokens "main" (aliasedLoops "Id" "Key") = .ok A ∧
    Program.ofTokens "main" (aliasedLoops "Tag" "Name") = .ok B ∧
    aliases A.body = [⟨"Id", some "Key"⟩] ∧ aliases B.body = [⟨"Tag", some "Name"⟩] ∧
    loopCount A.body = 3 ∧
    Program.ofTokens "main" (aliasedLoops "Id" "Key" ++ ⟨.symbol .semicolon, ";", .nowhere⟩ ::
      aliasedLoops "Tag" "Name") = .ok ⟨"main", A.body ++ B.body.map (renumber 3)⟩ := by
  have hok : (match Program.ofTokens "main" (aliasedLoops "Id" "Key"),
      Program.ofTokens "main" (aliasedLoops "Tag" "Name") with
    | .ok A, .ok B => decide (aliases A.body = [⟨"Id", some "Key"⟩] ∧
        aliases B.body = [⟨"Tag", some "Name"⟩] ∧ loopCount A.body = 3)
    | _, _ => false) = true := by decide +kernel
  cases hA : Program.ofTokens "main" (aliasedLoops "Id" "Key") with
  | error e => simp [hA] at hok
  | ok A =>
    cases hB : Program.ofTokens "main" (aliasedLoops "Tag" "Name") with
    | error e => simp [hA, hB] at hok
    | ok B =>
      rw [hA, hB] at hok
      obtain ⟨hdsA, hdsB, hloops⟩ := of_decide_eq_true hok
      refine ⟨A, B, rfl, rfl, hdsA, hdsB, hloops, hloops ▸ ?_⟩
      refine Program.ofTokens_join (by decide) (by decide) rfl hA hB ?_
      rw [hdsA, hdsB]
      decide

end Sable
