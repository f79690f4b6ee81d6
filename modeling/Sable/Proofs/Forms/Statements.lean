import Sable.Proofs.Forms.Expressions
import Sable.Proofs.Jumps.Runs
import Sable.Proofs.Spans.Statements

/-!
# Programs that are read are well-formed

`Stmt.Sound` for what the rules for statements read, and so for every statement of a program that was
read from a source (`Program.sound`, `Program.IsParsed.proper`).
-/

namespace Sable

open Sable.Parser

variable {text : String}

/-- What is declared stands in the text, with its type and the value or fallback given to it. -/
structure Declared (text : String) (name : Name) (type : Option TypeExpr) (value : Option Expr) :
    Prop where
  name : name.StandsIn text
  type : ∀ t ∈ type, t.Sound text
  value : ∀ e ∈ value, e.Sound text

/-- The function is well-formed and stands in the text. -/
structure FunctionOf.Sound (text : String) (f : Function) : Prop where
  names : Stand text f.names
  code : f.CodeSound text

/-- The getter is well-formed and stands in the text. -/
structure GetterOf.Sound (text : String) (g : Getter) : Prop where
  names : Stand text g.names
  code : g.toFunction.CodeSound text

theorem Declared.names {name : Name} {type : Option TypeExpr} {value : Option Expr}
    (h : Declared text name type value) : Stand text (declaredNames name type) :=
  .declared h.name fun t ht => (h.type t ht).stands

theorem bounds_proper {params : List TypeParam} (h : ∀ p ∈ params, Declared text p.name p.bound none) :
    ∀ t ∈ TypeParam.bounds params, t.Proper := by
  intro t ht
  obtain ⟨p, hp, hpt⟩ := List.mem_filterMap.1 ht
  exact ((h p hp).type t hpt).proper

theorem Stmt.Sound.expr {e : Expr} (h : e.Sound text) : (Stmt.expr e).Sound text :=
  .simple rfl .nil rfl (List.forall_mem_nil _) (List.forall_mem_singleton.2 h)

namespace Reader

variable {P : Token → Prop} {n b : Nat}

theorem finds_expr (hb : n ≤ b) (objects : Bool) :
    FindsIf (Token.FromText text) P n (Expr.Sound text) (expr b objects) :=
  (finds_expression faithful_readLiteral hb objects).any

section Blocks

variable {α : Type} {A : Token → Prop} {C : α → Prop} {rule : Reader Stmt} {item : Reader α}

theorem finds_statementsUntil (close : Kind) {C : Stmt → Prop} (h : Finds A n C rule) :
    ∀ budget, Finds A n (fun body => ∀ s ∈ body, C s) (statementsUntil close rule budget)
  | 0 => .pure (List.forall_mem_nil _)
  | budget + 1 => by
    refine .look (fun o => ⟨o.cursor.here.kind, rfl⟩) fun _ =>
      .ite (fun _ => .pure (List.forall_mem_nil _)) fun _ => ?_
    refine .past (coincide_accept_any _).lift fun _ => .ite (fun _ => ?_) fun _ => ?_
    · exact finds_statementsUntil close h budget
    · refine h.bind fun s hs => (finds_statementsUntil close h budget).bind fun body hbody => .pure ?_
      exact List.forall_mem_cons.2 ⟨hs, hbody⟩

theorem finds_block {C : Stmt → Prop} (h : Finds A n C rule) (budget : Nat) :
    FindsIf A P n (fun body => ∀ s ∈ body, C s) (block rule budget) := by
  refine .past coincide_openBlock.lift.weak.any fun close => ?_
  refine (finds_statementsUntil close h budget).bind fun body hbody => ?_
  exact .past (coincide_expect_any close).lift fun _ => .pure hbody

theorem finds_itemsUntil (close : Kind) (h : Finds A n C item) :
    ∀ budget, Finds A n (fun items => ∀ a ∈ items, C a) (itemsUntil close item budget)
  | 0 => .pure (List.forall_mem_nil _)
  | budget + 1 => by
    refine .look (fun o => ⟨o.cursor.here.kind, rfl⟩) fun _ =>
      .ite (fun _ => .pure (List.forall_mem_nil _)) fun _ => .ite (fun _ => ?_) fun _ => ?_
    · exact .past coincide_next.lift fun _ => finds_itemsUntil close h budget
    · refine h.bind fun a ha => (finds_itemsUntil close h budget).bind fun items hitems => .pure ?_
      exact List.forall_mem_cons.2 ⟨ha, hitems⟩

theorem finds_itemBlock (h : Finds A n C item) (budget : Nat) :
    Finds A n (fun x => ∀ a ∈ x.1, C a) (itemBlock item budget) := by
  refine .look (fun o => ⟨o.cursor.here, rfl⟩) fun start => ?_
  refine .past coincide_openBlock.lift.weak fun close => ?_
  refine (finds_itemsUntil close h budget).bind fun items hitems => ?_
  exact .past (coincide_expect_any close).lift fun _ => .pure hitems

end Blocks

section Heads

variable (hb : n ≤ b)
include hb

/-- A binding that needs a value is not read without one. -/
theorem finds_binding (objects : Bool) (modifier : Modifier) :
    Finds (Token.FromText text) (n + 1) (fun d => Declared text d.name d.type d.value ∧ d.wellMade = true)
      (binding b objects modifier) := by
  refine .identifier fun t ht hk => (finds_typeBehind _ hb).bind fun type htype => ?_
  refine (finds_after _ (finds_expr hb objects)).bind fun value hvalue => ?_
  refine .ite (fun _ => .fails fun _ => ⟨_, rfl⟩) fun hneeds => .pure ⟨?_, ?_⟩
  · exact ⟨(ht.cutFrom hk).standsIn, htype, hvalue⟩
  · cases value with
    | none => simpa [VarDecl.wellMade] using hneeds
    | some e => simp [VarDecl.wellMade]

omit hb in
theorem sound_declaring {decls : List VarDecl}
    (h : ∀ d ∈ decls, Declared text d.name d.type d.value ∧ d.wellMade = true) :
    (declaring decls).Sound text := by
  unfold declaring
  split
  · rename_i decl
    obtain ⟨hdecl, hmade⟩ := h decl List.mem_cons_self
    refine .simple rfl hdecl.names hmade (fun t ht => ?_) fun e he => ?_
    · exact (hdecl.type t (Option.mem_toList.1 ht)).proper
    · exact hdecl.value e (Option.mem_toList.1 he)
  · refine .simple rfl (.flatMap fun d hd => (h d hd).1.names)
      (List.all_eq_true.2 fun d hd => (h d hd).2) (fun t ht => ?_) fun e he => ?_
    · obtain ⟨d, hd, hdt⟩ := List.mem_filterMap.1 ht
      exact ((h d hd).1.type t hdt).proper
    · obtain ⟨d, hd, hde⟩ := List.mem_filterMap.1 he
      exact (h d hd).1.value e hde

theorem finds_varDecl (objects : Bool) :
    FindsIf (Token.FromText text) P (n + 1) (Stmt.Sound text) (varDecl b objects) := by
  refine .past coincide_next fun word => ?_
  have hdecls (modifier : Modifier) :
      Finds (Token.FromText text) (n + 1) (Stmt.Sound text) (bindings b objects modifier) :=
    (finds_commaList (finds_binding hb objects _) b).bind fun _ h => .pure (sound_declaring h)
  exact .ite (fun _ => .past (coincide_accept_any _) fun _ => hdecls _) fun _ => hdecls _

theorem finds_typeParams : Finds (Token.FromText text) n
    (fun ps => ∀ p ∈ ps, Declared text p.name p.bound none) (typeParams b) := by
  have hparam : Finds (Token.FromText text) n (fun p => Declared text p.name p.bound none)
      (typeParam b) := by
    refine (finds_name _).bind fun name hname => (finds_typeBehind _ hb).bind fun bound hbound => ?_
    exact .pure ⟨hname, hbound, by rintro _ ⟨⟩⟩
  refine .past (coincide_accept_any _) fun _ => .ite (fun _ => ?_) fun _ => .pure (List.forall_mem_nil _)
  refine (finds_commaList hparam b).bind fun ps hps => ?_
  exact .past (coincide_expect (by decide)).weak fun _ => .pure hps

/-- The word that was looked for is the name. -/
theorem finds_receiver : Finds (Token.FromText text) n (fun name => ∀ n ∈ name, n.StandsIn text)
    (receiver b) := by
  intro c hs _ hn
  refine ⟨((coincide_receiver hb hb) c hs trivial hn).2, fun name c' h => ?_⟩
  simp only [receiver, atWord_bind, ite_run] at h
  split at h
  · rename_i hself
    have hkind : c.here.kind = .identifier := by
      simp only [Token.isWord, Bool.and_eq_true, beq_iff_eq] at hself
      exact hself.1
    have hstands : c.here.name.StandsIn text :=
      ((ahead_advance (by rw [hkind]; decide) hs).1.cutFrom hkind).standsIn
    rw [next_bind] at h
    obtain ⟨_, _, -, h⟩ := bind_eq_ok.1 h
    simp only [kind_bind, ite_run] at h
    split at h
    · obtain ⟨_, _, -, h⟩ := bind_eq_ok.1 h
      cases h
      simpa using hstands
    · cases h
      simpa using hstands
  · cases h
    rintro _ ⟨⟩

theorem finds_params : Finds (Token.FromText text) n
    (fun ps => ∀ p ∈ ps, Declared text p.name p.type p.fallback) (params b) := by
  have hparam : Finds (Token.FromText text) n (fun p => Declared text p.name p.type p.fallback)
      (param b) := by
    refine (finds_name _).bind fun name hname => (finds_typeBehind _ hb).bind fun type htype => ?_
    exact (finds_after _ (finds_expr hb true)).bind fun _ hfallback => .pure ⟨hname, htype, hfallback⟩
  refine (finds_listUntil _ hparam b).bind fun ps hps => ?_
  exact .past (coincide_expect (by decide)).weak fun _ => .pure hps

theorem finds_ret : FindsIf (Token.FromText text) P n (Stmt.Sound text) (ret b) := by
  refine .past coincide_next fun start => .look (fun c => ⟨c.here.kind, rfl⟩) fun _ => ?_
  refine .look (fun c => ⟨c.onSameLine, rfl⟩) fun _ => .ite (fun _ => ?_) fun _ => .pure ?_
  · refine (finds_expr hb true).bind fun e he => .pure ?_
    exact .simple rfl .nil rfl (List.forall_mem_nil _) (List.forall_mem_singleton.2 he)
  · exact .simple rfl .nil rfl (List.forall_mem_nil _) (List.forall_mem_nil _)

theorem finds_range : Finds (Token.FromText text) n
    (fun r => r.start.Sound text ∧ r.stop.Sound text ∧ ∀ e ∈ r.step, e.Sound text) (range b) := by
  have hcondition : FindsExpr text n (condition b) := finds_expr hb false
  have hword (word : String) (c : Cursor) : ∃ v, atWord word c = .ok (v, c) := ⟨_, rfl⟩
  refine hcondition.bind fun start hstart => ?_
  have hstop (inclusive : Bool) : Finds (Token.FromText text) n
      (fun r => r.start.Sound text ∧ r.stop.Sound text ∧ ∀ e ∈ r.step, e.Sound text)
      (rangeFrom b start inclusive) := by
    refine .past coincide_next fun _ => hcondition.bind fun stop hstop => ?_
    refine .look (hword _) fun _ => .ite (fun _ => ?_) fun _ => .pure ⟨hstart, hstop, by rintro _ ⟨⟩⟩
    refine .past coincide_next fun _ => hcondition.bind fun step hstep => ?_
    exact .pure ⟨hstart, hstop, by simpa using hstep⟩
  refine .look (hword _) fun _ => .look (hword _) fun _ => .ite (fun _ => hstop false) fun _ => ?_
  exact .ite (fun _ => hstop true) fun _ => .past (i := 0) (coincide_unexpected _) hstop

theorem finds_fieldDecl : Finds (Token.FromText text) n
    (fun f => Declared text f.name (some f.type) none) (fieldDecl b) := by
  refine (finds_name _).bind fun name hname => .past (coincide_accept_any _) fun _ => ?_
  refine .past (coincide_expect (by decide)).weak fun _ => (finds_soundType hb).bind fun type htype => ?_
  exact .pure ⟨hname, by simpa using htype, by rintro _ ⟨⟩⟩

theorem finds_getterHead : FindsIf (Token.FromText text) P n
    (fun head => Declared text head.1 (some head.2) none) (getterHead b) := by
  refine .past coincide_next fun _ => (finds_name _).bind fun name hname => ?_
  refine .past (coincide_expect (by decide)).weak fun _ => (finds_soundType hb).bind fun type htype => ?_
  exact .pure ⟨hname, by simpa using htype, by rintro _ ⟨⟩⟩

theorem finds_requirement : Finds (Token.FromText text) n
    (fun r => Stand text r.names ∧ ∀ t ∈ r.annotations, t.Proper) (requirement b) := by
  refine .past (coincide_accept_any _) fun _ => .ite (fun _ => ?_) fun _ => ?_
  · refine (finds_name _).bind fun name hname => .past (coincide_expect (by decide)).weak fun _ => ?_
    refine .past (coincide_receiver hb hb) fun _ => (finds_params hb).bind fun ps hps => ?_
    refine (finds_typeBehind _ hb).bind fun result hresult => .pure ⟨?_, ?_⟩
    · refine .append (.cons hname (.flatMap fun type htype => ?_))
        (TypeExpr.forall_resultNames fun t ht => (hresult t ht).stands)
      obtain ⟨p, hp, rfl⟩ := List.mem_map.1 htype
      exact fun n hn => (hps p hp).names n (List.mem_cons_of_mem _ hn)
    · refine List.forall_mem_append.2 ⟨fun t ht => ?_, fun t ht => ?_⟩
      · obtain ⟨type, htype, rfl⟩ := List.mem_filterMap.1 ht
        obtain ⟨p, hp, hpt⟩ := List.mem_map.1 htype
        exact ((hps p hp).type t hpt).proper
      · exact (hresult t (Option.mem_toList.1 ht)).proper
  · refine .look (fun c => ⟨_, rfl⟩) fun _ => .ite (fun _ => ?_) fun _ => .unexpected _
    exact (finds_getterHead hb).bind fun head h =>
      .pure ⟨h.names, List.forall_mem_singleton.2 (h.type head.2 rfl).proper⟩

theorem finds_structDef : Finds (Token.FromText text) n
    (fun d => Stand text d.names ∧ ∀ t ∈ d.annotations, t.Proper) (structDef b) := by
  refine (finds_itemBlock (finds_fieldDecl hb).lift b).bind fun x h => .pure ⟨?_, fun t ht => ?_⟩
  · rw [TypeExpr.names_struct]
    exact .flatMap fun f hf => (h f hf).names
  · obtain ⟨f, hf, rfl⟩ := List.mem_map.1 ht
    exact ((h f hf).type f.type rfl).proper

omit hb in
/-- An annotation that stands for a type is no definition of one. -/
theorem proper_annotations {type : TypeExpr} (h : type.Proper) : ∀ t ∈ type.annotations, t.Proper := by
  cases h with
  | word h => exact List.forall_mem_singleton.2 (.word h)
  | named name => exact List.forall_mem_singleton.2 (.named name)
  | generic some h => exact List.forall_mem_singleton.2 (.generic some h)
  | union several h => exact List.forall_mem_singleton.2 (.union several h)
  | array h => exact List.forall_mem_singleton.2 (.array h)
  | function hp hr => exact List.forall_mem_singleton.2 (.function hp hr)

theorem finds_typeDef : Finds (Token.FromText text) n
    (fun d => Stand text d.names ∧ ∀ t ∈ d.annotations, t.Proper) (typeDef b) := by
  refine .past (coincide_accept_any _).lift fun _ => .ite (fun _ => finds_structDef hb) fun _ => ?_
  refine .past (coincide_accept_any _).lift fun _ => .ite (fun _ => ?_) fun _ => ?_
  · refine (finds_itemBlock (finds_requirement hb).lift b).bind fun x h => .pure ⟨?_, fun t ht => ?_⟩
    · rw [TypeExpr.names_contract]
      exact .flatMap fun r hr => (h r hr).1
    · obtain ⟨r, hr, ht⟩ := List.mem_flatMap.1 ht
      exact (h r hr).2 t ht
  refine .past (coincide_accept_any _).lift fun _ => .ite (fun _ => ?_) fun _ => ?_
  · exact (finds_soundType hb).lift.conseq fun _ h => ⟨h.stands, proper_annotations h.proper⟩
  · exact .look (fun o => ⟨o.cursor.here.kind, rfl⟩) fun _ => .ite (fun _ => finds_structDef hb) fun _ =>
      (FindsIf.unexpected _).lift

omit hb in
/-- A declaration of a type from its parts. -/
theorem sound_typeDecl {name : Name} {params : List TypeParam} {definition : TypeExpr}
    (hn : name.StandsIn text) (hp : ∀ p ∈ params, Declared text p.name p.bound none)
    (hd : Stand text definition.names ∧ ∀ t ∈ definition.annotations, t.Proper) :
    (Stmt.typeDecl name params definition).Sound text := by
  refine .simple rfl ?_ rfl (List.forall_mem_append.2 ⟨bounds_proper hp, hd.2⟩) (List.forall_mem_nil _)
  exact .append (.cons hn (.flatMap fun p hmem => (hp p hmem).names)) hd.1

theorem finds_typeDecl : FindsIf (Token.FromText text) P n (Stmt.Sound text) (typeDecl b) := by
  refine .past (coincide_expect (by decide)).lift.weak fun _ => ?_
  refine (finds_name _).lift.bind fun name hname => ?_
  refine (finds_typeParams hb).lift.bind fun params hparams => ?_
  exact (finds_typeDef hb).bind fun _ h => .pure (sound_typeDecl hname hparams h)

theorem finds_aliasDecl : FindsIf (Token.FromText text) P n (Stmt.Sound text) (aliasDecl b) := by
  refine .past (coincide_expect (by decide)).lift.weak fun start => ?_
  refine (finds_name _).lift.bind fun name hname => ?_
  refine .past (coincide_expect (by decide)).lift.weak fun _ => ?_
  refine (finds_soundType hb).lift.bind fun target htarget => ?_
  have hlast : Finds (Token.FromText text) n (Stmt.Sound text)
      (aliasOf name target (start.span.upTo target.span)) := by
    refine .past (.silent fun _ => ⟨(), _, rfl, rfl⟩) fun _ => .pure ?_
    refine sound_typeDecl hname (List.forall_mem_nil _) ⟨?_, List.forall_mem_singleton.2 htarget.proper⟩
    rw [TypeExpr.names]
    exact htarget.stands
  cases target with
  | named other =>
    refine .look (fun o => ⟨_, rfl⟩) fun _ => .ite (fun _ => ?_) fun _ => hlast
    exact .past (i := 0) (coincide_fail _ _).lift fun _ => hlast
  | _ => exact hlast

end Heads

theorem finds_jump {make : Nat → Option Name → Span → Stmt} (loops : List Enclosing)
    (hmake : ∀ id (label : Option Name) span, (∀ n ∈ label, n.StandsIn text) →
      (make id label span).Sound text) :
    FindsIf (Token.FromText text) P n (Stmt.Sound text) (jump make loops) := by
  have hto (start : Span) (label : Option Name) (hlabel : ∀ n ∈ label, n.StandsIn text) :
      Finds (Token.FromText text) n (Stmt.Sound text) (jumpTo make loops start label) := by
    unfold jumpTo
    dsimp only
    split
    · exact .pure (hmake _ label _ hlabel)
    · exact .fails fun _ => ⟨_, rfl⟩
  refine .past coincide_next fun start => .look (fun c => ⟨c.here.kind, rfl⟩) fun _ => ?_
  refine .look (fun c => ⟨c.onSameLine, rfl⟩) fun _ => .ite (fun _ => ?_) fun _ =>
    hto _ none (by rintro _ ⟨⟩)
  exact (finds_name _).bind fun label hlabel => hto _ (some label) (by simpa using hlabel)

section Loops

variable {body : Reader (List Stmt)} (hb : n ≤ b)
  (hbody : Finds (Token.FromText text) n (fun body => ∀ s ∈ body, s.Sound text) body) (id : Nat)
  {label : Option Name} (hl : ∀ n ∈ label, n.StandsIn text)
include hb hbody hl

theorem finds_iteration :
    Finds (Token.FromText text) n (Stmt.Sound text) (iteration body b id label) := by
  -- from the word `in` on, whether there is an index or not
  have hloop (index : Option Name) (value : Name) (hi : ∀ n ∈ index, n.StandsIn text)
      (hv : value.StandsIn text) : Finds (Token.FromText text) n (Stmt.Sound text) (do
        let _ ← expect (.keyword .inWord)
        if ← startsRange then
          let _ ← next
          let range ← Reader.range b
          return .forRange id label index value range (← body)
        else
          let iterable ← condition b
          return .forIn id label index value iterable (← body) : Reader Stmt) := by
    have hnames : Stand text (label.toList ++ index.toList ++ [value]) :=
      .append (.append (.toList hl) (.toList hi)) (.cons hv .nil)
    refine .past (coincide_expect (by decide)).lift.weak fun _ => ?_
    refine .look (fun o => ⟨_, rfl⟩) fun _ => .ite (fun _ => ?_) fun _ => ?_
    · refine .past coincide_next.lift fun _ => (finds_range hb).lift.bind fun range hrange => ?_
      obtain ⟨hstart, hstop, hstep⟩ := hrange
      refine hbody.bind fun body hbody => .pure (.forRange hbody hnames ?_)
      simpa using ⟨hstart, hstop, hstep⟩
    · refine (finds_expr hb false).lift.bind fun iterable hiterable => ?_
      exact hbody.bind fun body hbody => .pure (.forIn hbody hnames hiterable)
  refine (finds_name _).lift.bind fun first hfirst => ?_
  refine (finds_after _ (finds_name _)).lift.bind fun second hsecond => ?_
  cases second with
  | none => exact hloop none first (by rintro _ ⟨⟩) hfirst
  | some second => exact hloop (some first) second (by simpa using hfirst) (hsecond second rfl)

theorem finds_stepped {init : Stmt} (hinit : init.Sound text) :
    Finds (Token.FromText text) n (Stmt.Sound text) (stepped body b id label init) := by
  refine .past (coincide_expect (by decide)).lift.weak fun _ => ?_
  refine (finds_expr hb false).lift.bind fun test htest => ?_
  refine .past (coincide_expect (by decide)).lift.weak fun _ => ?_
  refine (finds_expr hb false).lift.bind fun update hupdate => hbody.bind fun body hbody => ?_
  refine .pure (.forLoop hbody hl ?_ ?_ ?_)
  · simpa using hinit
  · simpa using htest
  · simpa using hupdate

end Loops

/-! ### Statements in one another -/

section Compound

variable {rule : List Enclosing → Reader Stmt} (hb : n ≤ b)
  (h : ∀ loops, Finds (Token.FromText text) n (Stmt.Sound text) (rule loops))
include hb h

theorem finds_function (isMethod : Bool) :
    FindsIf (Token.FromText text) P (n + 1) (FunctionOf.Sound text) (function rule b isMethod) := by
  refine .past (coincide_expect (by decide)).lift fun start => ?_
  refine (finds_name _).lift.bind fun name hname => ?_
  refine (finds_typeParams hb).lift.bind fun typeParams htypeParams => ?_
  refine .past (coincide_expect (by decide)).lift.weak fun _ => ?_
  have hrest (receiver : Option Name) (hreceiver : ∀ n ∈ receiver, n.StandsIn text) :
      Finds (Token.FromText text) n (FunctionOf.Sound text)
        (functionFrom rule b start.span name typeParams receiver) := by
    refine (finds_params hb).lift.bind fun params hparams => ?_
    refine (finds_typeBehind _ hb).lift.bind fun result hresult => ?_
    refine (finds_block (h []) b).bind fun body hbody => ?_
    refine .look (fun o => ⟨o.cursor.last, rfl⟩) fun _ => ?_
    refine .pure ⟨?_, ⟨?_, fun p hp => (hparams p hp).value, hbody⟩⟩
    · have hhead : Stand text (name :: typeParams.flatMap (·.names)) :=
        .cons hname (.flatMap fun p hp => (htypeParams p hp).names)
      have hvalues : Stand text (params.flatMap (·.names)) := .flatMap fun p hp => (hparams p hp).names
      exact .append (.append (.append hhead (.toList hreceiver)) hvalues)
        (TypeExpr.forall_resultNames fun t ht => (hresult t ht).stands)
    · refine List.forall_mem_append.2 ⟨List.forall_mem_append.2 ⟨bounds_proper htypeParams, ?_⟩, ?_⟩
      · intro t ht
        obtain ⟨p, hp, hpt⟩ := List.mem_filterMap.1 ht
        exact ((hparams p hp).type t hpt).proper
      · exact fun t ht => (hresult t (Option.mem_toList.1 ht)).proper
  refine .ite (fun _ => ?_) fun _ => hrest none (by rintro _ ⟨⟩)
  exact (finds_receiver hb).lift.bind fun receiver hreceiver => hrest receiver hreceiver

theorem finds_elseTail (loops : List Enclosing) : ∀ budget, Finds (Token.FromText text) n
    (fun x : List (Expr × List Stmt) × Option (List Stmt) =>
      (∀ y ∈ x.1, y.1.Sound text ∧ ∀ s ∈ y.2, s.Sound text) ∧
        ∀ body ∈ x.2, ∀ s ∈ body, s.Sound text)
    (elseTail (rule loops) b budget)
  | 0 => .pure ⟨List.forall_mem_nil _, by rintro _ ⟨⟩⟩
  | budget + 1 => by
    have hbody := finds_block (P := fun _ => True) (h loops) b
    refine .past (coincide_accept_any _).lift fun _ => .ite (fun _ => ?_) fun _ =>
      .pure ⟨List.forall_mem_nil _, by rintro _ ⟨⟩⟩
    refine .past (coincide_accept_any _).lift fun _ => .ite (fun _ => ?_) fun _ => ?_
    · refine (finds_expr hb false).lift.bind fun test htest => hbody.bind fun body hbody => ?_
      refine (finds_elseTail loops budget).bind fun x hx => .pure ⟨?_, hx.2⟩
      exact List.forall_mem_cons.2 ⟨⟨htest, hbody⟩, hx.1⟩
    · exact hbody.bind fun body hbody => .pure ⟨List.forall_mem_nil _, by simpa using hbody⟩

theorem finds_ifElse (loops : List Enclosing) :
    FindsIf (Token.FromText text) P (n + 1) (Stmt.Sound text) (ifElse (rule loops) b) := by
  refine .past (coincide_expect (by decide)).lift fun _ => ?_
  refine (finds_expr hb false).lift.bind fun test htest => ?_
  refine (finds_block (h loops) b).bind fun body hbody => ?_
  refine (finds_elseTail hb h loops b).bind fun x hx => .pure ?_
  exact .ifElse (List.forall_mem_cons.2 ⟨⟨htest, hbody⟩, hx.1⟩) hx.2

theorem finds_whileLoop (loops : List Enclosing) :
    FindsIf (Token.FromText text) P (n + 1) (Stmt.Sound text) (whileLoop rule b loops) := by
  refine .past (coincide_expect (by decide)).lift fun _ => .past coincide_newLoop fun id => ?_
  refine (finds_expr hb false).lift.bind fun test htest => ?_
  exact (finds_block (h _) b).bind fun body hbody => .pure (.whileLoop hbody htest)

theorem finds_loopHead (loops : List Enclosing) {label : Option Name}
    (hl : ∀ n ∈ label, n.StandsIn text) :
    Finds (Token.FromText text) n (Stmt.Sound text) (loopHead rule b loops label) := by
  refine .past coincide_newLoop fun id => .look (fun o => ⟨o.cursor.here.kind, rfl⟩) fun first => ?_
  have hbody := finds_block (P := fun _ => True) (h (⟨id, label.map (·.text)⟩ :: loops)) b
  -- a loop without a head, or with a condition alone
  have hplain {test : Option Expr} (htest : ∀ e ∈ test, e.Sound text) {body : List Stmt}
      (hs : ∀ s ∈ body, s.Sound text) : (Stmt.forLoop id label none test none body).Sound text :=
    .forLoop hs hl (by rintro _ ⟨⟩) htest (by rintro _ ⟨⟩)
  refine .ite (fun _ => hbody.bind fun _ hs => .pure (hplain (by rintro _ ⟨⟩) hs)) fun _ => ?_
  refine .look startsIteration_stays fun _ => .ite (fun _ => finds_iteration hb hbody id hl) fun _ => ?_
  refine .ite (fun _ => ?_) fun _ => ?_
  · have hinit : Finds (Token.FromText text) (n + 1) (Stmt.Sound text) (varDecl b false) :=
      finds_varDecl hb false
    exact (hinit.mono (Nat.le_succ n)).lift.bind fun _ hs => finds_stepped hb hbody id hl hs
  · refine (finds_expr hb false).lift.bind fun test htest => ?_
    refine .look (fun o => ⟨o.cursor.here.kind, rfl⟩) fun _ => .ite (fun _ => ?_) fun _ => ?_
    · exact finds_stepped hb hbody id hl (.expr htest)
    · exact hbody.bind fun _ hs => .pure (hplain (by simpa using htest) hs)

theorem finds_forLoop (loops : List Enclosing) :
    FindsIf (Token.FromText text) P (n + 1) (Stmt.Sound text) (forLoop rule b loops) := by
  rw [forLoop_eq]
  refine .past (coincide_expect (by decide)).lift fun _ => ?_
  refine .look (fun o => ⟨_, lift_eq_ok.2 ⟨_, startsLabel_eq o.cursor, rfl⟩⟩) fun _ => ?_
  refine .ite (fun _ => ?_) fun _ => finds_loopHead hb h loops (by rintro _ ⟨⟩)
  refine .past coincide_next.lift fun _ => (finds_name _).lift.bind fun label hlabel => ?_
  exact finds_loopHead hb h loops (by simpa using hlabel)

theorem finds_implementation : Finds (Token.FromText text) n
    (Sum.elim (FunctionOf.Sound text) (GetterOf.Sound text)) (implementation rule b) := by
  refine .look (fun o => ⟨o.cursor.here.kind, rfl⟩) fun _ => .ite (fun _ => ?_) fun _ => ?_
  · have hfunction := finds_function (P := fun _ => True) hb h true
    exact (hfunction.mono (Nat.le_succ n)).bind fun _ hf => .pure hf
  refine .look (fun o => ⟨_, rfl⟩) fun _ => .ite (fun _ => ?_) fun _ => (FindsIf.unexpected _).lift
  refine (finds_getterHead hb).lift.bind fun head hhead => ?_
  refine (finds_block (h []) b).bind fun body hbody => .pure ⟨hhead.names, ?_, ?_, hbody⟩
  · exact List.forall_mem_singleton.2 (hhead.type head.2 rfl).proper
  · exact List.forall_mem_nil _

theorem finds_fulfillment :
    FindsIf (Token.FromText text) P (n + 1) (Stmt.Sound text) (fulfillment rule b) := by
  refine .past (coincide_expect (by decide)).lift fun _ => ?_
  refine (finds_name _).lift.bind fun contract hcontract => ?_
  refine .past (coincide_expect (by decide)).lift.weak fun _ => ?_
  refine (finds_name _).lift.bind fun target htarget => ?_
  refine (finds_itemBlock (finds_implementation hb h) b).bind fun items hitems => .pure ?_
  have hmethod : ∀ f ∈ items.1.filterMap (·.getLeft?), f.Sound text := by
    intro f hf
    obtain ⟨item, hitem, heq⟩ := List.mem_filterMap.1 hf
    obtain rfl := Sum.getLeft?_eq_some_iff.1 heq
    exact hitems _ hitem
  have hgetter : ∀ g ∈ items.1.filterMap (·.getRight?), g.Sound text := by
    intro g hg
    obtain ⟨item, hitem, heq⟩ := List.mem_filterMap.1 hg
    obtain rfl := Sum.getRight?_eq_some_iff.1 heq
    exact hitems _ hitem
  refine .of_functions rfl rfl rfl rfl ?_ fun f hf => ?_
  · have hnames := Stand.cons hcontract (.cons htarget (.flatMap fun f hf => (hmethod f hf).names))
    exact .append hnames (.flatMap fun g hg => (hgetter g hg).names)
  · rcases List.mem_append.1 hf with hf | hf
    · exact (hmethod f hf).code
    · obtain ⟨g, hg, rfl⟩ := List.mem_map.1 hf
      exact (hgetter g hg).code

omit hb in
/-- A statement may be an expression, so its budget exceeds the tokens ahead. -/
theorem finds_statementWith (hb : n < b) (loops : List Enclosing) :
    Finds (Token.FromText text) (n + 1) (Stmt.Sound text) (statementWith rule b loops) := by
  have hle := Nat.le_of_lt hb
  refine .look (fun o => ⟨o.cursor.here.kind, rfl⟩) fun k => ?_
  have hvar : Finds (Token.FromText text) (n + 1) (Stmt.Sound text) (varDecl b true) :=
    finds_varDecl hle true
  split
  · exact hvar.lift
  · exact hvar.lift
  · exact hvar.lift
  · exact hvar.lift
  · refine (finds_function hle h false).bind fun f hf => .pure ?_
    exact .of_functions rfl rfl rfl rfl hf.names (List.forall_mem_singleton.2 hf.code)
  · exact (finds_ret hb).lift
  · exact finds_ifElse hle h loops
  · exact finds_whileLoop hle h loops
  · exact finds_forLoop hle h loops
  · refine FindsIf.lift (finds_jump loops fun _ _ _ hl => ?_)
    exact .simple rfl (.toList hl) rfl (List.forall_mem_nil _) (List.forall_mem_nil _)
  · refine FindsIf.lift (finds_jump loops fun _ _ _ hl => ?_)
    exact .simple rfl (.toList hl) rfl (List.forall_mem_nil _) (List.forall_mem_nil _)
  · exact finds_typeDecl hb
  · exact finds_aliasDecl hb
  · exact finds_fulfillment hle h
  · exact (finds_expr hb true).lift.bind fun _ he => .pure (.expr he)

end Compound

theorem finds_statement : ∀ {n b : Nat} (_ : n ≤ b) (loops : List Enclosing),
    Finds (Token.FromText text) n (Stmt.Sound text) (statement (b + 1) loops)
  | 0, _, _, _ => .zero
  | _ + 1, _ + 1, hb, loops =>
    have hle := Nat.le_of_succ_le_succ hb
    finds_statementWith (finds_statement hle) (Nat.lt_succ_of_le hle) loops

end Reader

/-- Every statement of a program that was read is well-formed and stands in the source. -/
theorem Program.sound {file source : String} {p : Program} (h : Program.parse file source = .ok p) :
    ∀ s ∈ p.body, s.Sound source := by
  obtain ⟨tokens, htokens, hread⟩ := Program.parse_eq_ok.1 h
  obtain ⟨-, t, hprogram⟩ := Program.ofTokens_eq_ok.1 hread
  have hlt := distance_lt_length (Cursor.exists_endOfFile tokens)
  exact (Reader.finds_statementsUntil .endOfFile (Reader.finds_statement (Nat.le_refl _) []) _
    ⟨Cursor.ofTokens tokens, 0, []⟩ (Cursor.fromText_ofTokens htokens) trivial hlt).2 p.body t hprogram

theorem Program.IsParsed.proper {p : Program} (h : p.IsParsed) : ∀ s ∈ p.body, s.Proper := by
  obtain ⟨file, source, hp⟩ := h
  exact fun s hs => (Program.sound hp s hs).proper

end Sable
