import Sable.Proofs.Forms.Statements

/-!
# The places that calls report

`CodeLaw.read`: code that was read from given sources. The span of a call in progress is that of a call
in them, or of an access to a member that a getter answers (`Machine.Sited`), and starts where the
expression is written. In a text literal that is a place in the text of a hole and none in the source.
-/

namespace Sable

section Sources

variable {sources : String → String → Prop} {text : String} {e e' : Expr}

/-- The program was read from one of the sources, each under the name of its file. -/
def Program.ReadFrom (sources : String → String → Prop) (p : Program) : Prop :=
  ∃ file source, sources file source ∧ Program.parse file source = .ok p

/-- The expression is one of a program that was read from one of the sources, and is written in the
text. -/
def Expr.ReadFrom (sources : String → String → Prop) (text : String) (e : Expr) : Prop :=
  ∃ file source p, sources file source ∧ Program.parse file source = .ok p ∧
    Holds p.body source text e

theorem Expr.ReadFrom.stands (h : e.ReadFrom sources text) : e.Stands text := by
  obtain ⟨file, source, p, -, hp, he⟩ := h
  exact (he.sound (Program.sound hp)).stands

/-- All parts of an expression are read from texts, those of a literal from the texts of its holes. -/
theorem Expr.ReadFrom.part (h : e.ReadFrom sources text) (he : e' ∈ e.parts) :
    ∃ text', e'.ReadFrom sources text' := by
  have hparts := h.stands.parts
  obtain ⟨file, source, p, hsource, hp, hholds⟩ := h
  rw [hparts] at he
  rcases List.mem_append.1 he with he | he
  · exact ⟨text, file, source, p, hsource, hp, .operand hholds he⟩
  · obtain ⟨x, hx, rfl⟩ := List.mem_map.1 he
    exact ⟨x.1, file, source, p, hsource, hp, .hole hholds hx⟩

/-- Code that was read from the sources. -/
def CodeLaw.read (sources : String → String → Prop) : CodeLaw where
  stmt s := ∃ file source p loops, sources file source ∧ Program.parse file source = .ok p ∧
    Within p.body loops s
  function f := ∃ file source p loops s, sources file source ∧ Program.parse file source = .ok p ∧
    Within p.body loops s ∧ f ∈ s.functions
  expr e := ∃ text, e.ReadFrom sources text
  site span := ∃ (text : String) (e : Expr), e.ReadFrom sources text ∧ e.callSite? = some span
  part := by
    rintro s x ⟨file, source, p, loops, hsource, hp, hs⟩ hx
    exact ⟨file, source, p, x.1 ++ loops, hsource, hp, .part hs (Stmt.mem_parts_append hx loops)⟩
  declared := by
    rintro s f ⟨file, source, p, loops, hsource, hp, hs⟩ hf
    exact ⟨file, source, p, loops, s, hsource, hp, hs, hf⟩
  body := by
    rintro f t ⟨file, source, p, loops, s, hsource, hp, hs, hf⟩ ht
    exact ⟨file, source, p, [], hsource, hp, .body hs (Stmt.body_mem_bodies hf) ht⟩
  used := by
    rintro s e ⟨file, source, p, loops, hsource, hp, hs⟩ he
    exact ⟨source, file, source, p, hsource, hp, .stmt hs he⟩
  fallback := by
    rintro f param e ⟨file, source, p, loops, s, hsource, hp, hs, hf⟩ hparam he
    exact ⟨source, file, source, p, hsource, hp, .fallback hs hf hparam he⟩
  inner := by
    rintro e e' ⟨text, he⟩ hpart
    exact he.part hpart
  called := by
    rintro e span ⟨text, he⟩ hspan
    exact ⟨text, e, he, hspan⟩

theorem Program.ReadFrom.lawful {p : Program} (h : p.ReadFrom sources) :
    ∀ s ∈ p.body, (CodeLaw.read sources).stmt s := by
  obtain ⟨file, source, hsource, hp⟩ := h
  exact fun s hs => ⟨file, source, p, [], hsource, hp, .top hs⟩

end Sources

/-- All calls in progress were made from places that the law allows. -/
def Machine.Sited (law : CodeLaw) (m : Machine) : Prop :=
  ∀ frame ∈ m.context.calls, law.site frame.span

theorem Step.sited {law : CodeLaw} {cfg : Config} {m : Machine} {x : Moment} (h : Step law cfg m x)
    (hm : m.Sited law) : x.machine.Sited law := by
  have hpop : ∀ frame ∈ m.context.calls.tail, law.site frame.span :=
    fun frame hframe => hm frame (List.mem_of_mem_tail hframe)
  cases h with
  | call hsite h =>
    obtain ⟨-, rfl⟩ := Context.push_eq_ok h
    exact List.forall_mem_cons.2 ⟨hsite, hm⟩
  | back => exact hpop
  | unwind => simpa [Machine.Sited, Context.pop] using hpop
  | print lines => simpa [Machine.Sited] using hm
  | capture => simpa [Machine.Sited] using hm
  | _ => exact hm

/-- In a session of programs that were read from the sources, all calls in progress were made by
expressions of these programs. -/
theorem Session.frames_sited {sources : String → String → Prop} {s : Session}
    (hs : s.Reached (Program.ReadFrom sources)) {p : Program} (hp : p.ReadFrom sources) (cfg : Config)
    (fuel : Nat) : ∀ x ∈ s.history cfg fuel p, x.machine.Sited (.read sources) := by
  obtain ⟨hstore, hcalls, -⟩ := hs.lawful fun _ h => h.lawful
  obtain ⟨-, ⟨m, ht⟩, -⟩ := watch_lawful cfg fuel hstore hp.lawful
  have hstart : s.machine.Sited (.read sources) := by
    intro frame hframe
    rw [show s.machine.context.calls = [] from hcalls] at hframe
    exact absurd hframe List.not_mem_nil
  intro x hx
  obtain ⟨m₀, hm₀, hstep⟩ := ht.forall_mem (fun hx hm => hx.sited hm) hstart x hx
  exact hstep.sited hm₀

/-- The names of a program stand in its source, but for those in an expression inside a text literal:
they stand in the text of that expression. In the same way all expressions start where their first
token stands, calls with the first token of what they call. Such a place is what a call in progress
reports: whatever was run in a session before, it is that of a call or an access to a member in one of
the programs of the session. -/
theorem Program.names_stand {file source : String} {p : Program}
    (h : Program.parse file source = .ok p) :
    (∀ loops s, Within p.body loops s → Stand source s.names) ∧
    (∀ text e, Holds p.body source text e → e.Stands text) ∧
    (∀ text callee args span, Holds p.body source text (.call callee args span) →
      ∃ t : Token, t.Cut Kind.written text ∧ callee.StartsWith t ∧
        span.start = t.span.start ∧ callee.span.start = t.span.start) ∧
    ∀ (sources : String → String → Prop) (s : Session) (cfg : Config) (fuel : Nat),
      sources file source → s.Reached (Program.ReadFrom sources) →
      ∀ x ∈ s.history cfg fuel p, ∀ frame ∈ x.machine.context.calls,
        ∃ (text : String) (e : Expr), e.ReadFrom sources text ∧ e.callSite? = some frame.span ∧
          ∃ t : Token, t.Cut Kind.written text ∧ e.StartsWith t ∧
            frame.span.start = t.span.start := by
  have hsound := Program.sound h
  refine ⟨fun loops s hs => (Stmt.All.within hsound hs).own.1,
    fun text e he => (he.sound hsound).stands, fun text callee args span he => ?_,
    fun sources s cfg fuel hsource hs x hx frame hframe => ?_⟩
  · have hcall := he.sound hsound
    obtain ⟨t, hcut, hstarts, hstart⟩ := hcall.stands.start
    obtain ⟨t', -, hstarts', hstart'⟩ := (hcall.operand List.mem_cons_self).stands.start
    exact ⟨t, hcut, hstarts, hstart.symm, hstart'.symm.trans (hstarts'.start_eq hstarts)⟩
  · have hsited := Session.frames_sited hs ⟨file, source, hsource, h⟩ cfg fuel x hx
    obtain ⟨text, e, he, hsite⟩ := hsited frame hframe
    obtain ⟨t, hcut, hstarts, hstart⟩ := he.stands.start
    have hspan : e.span = frame.span := by
      cases e <;> cases hsite <;> rfl
    exact ⟨text, e, he, hsite, t, hcut, hstarts, by rw [hstart, hspan]⟩

/-- A function with an expression in a text, and a call of it. -/
def greeting : String :=
  "fn greet(name) \x7b\n return \"hi $\x7bname\x7d\"\n\x7d\ngreet(\"you\")"

/-- A text with a name in it is returned. -/
def returnsName : List Stmt → Bool
  | [.ret (some (.text _ _ [.var n] literal)) _] =>
    n.text == "name" && literal.holes greeting == ["name"]
  | _ => false

def Program.isGreeting (p : Program) : Bool :=
  match p.body with
  | [.function f, .expr (.call _ _ _)] =>
    f.names.map (·.text) == ["greet", "name"] && returnsName f.body
  | _ => false

theorem holds_of_returnsName {f : Function} {body : List Stmt} (h : returnsName f.body = true)
    (hf : Within body [] (.function f)) :
    ∃ n : Name, n.text = "name" ∧ Holds body greeting "name" (.var n) := by
  unfold returnsName at h
  split at h
  · rename_i template names n literal place hbody
    simp only [Bool.and_eq_true, beq_iff_eq] at h
    have hret : Within body [] (.ret (some (.text template names [.var n] literal)) place) :=
      .body hf (List.mem_singleton_self _) (hbody ▸ List.mem_singleton_self _)
    have hmem : ("name", Expr.var n) ∈
        (Expr.text template names [.var n] literal).holes greeting := by
      rw [Expr.holes, h.2]
      exact List.mem_singleton_self _
    exact ⟨n, h.1, .hole (.stmt hret (List.mem_singleton_self _)) hmem⟩
  · cases h

/-- The name is in the text that the function returns, and the call is behind the function. -/
theorem Program.holds_of_isGreeting {p : Program} (h : p.isGreeting = true) :
    ∃ f n callee args span, .function f ∈ p.body ∧ f.names.map (·.text) = ["greet", "name"] ∧
      n.text = "name" ∧ Holds p.body greeting "name" (.var n) ∧
      Holds p.body greeting greeting (.call callee args span) := by
  unfold isGreeting at h
  split at h
  · rename_i f callee args span hbody
    rw [hbody]
    simp only [Bool.and_eq_true, beq_iff_eq] at h
    obtain ⟨n, hname, hhole⟩ := holds_of_returnsName h.2 (.top List.mem_cons_self)
    exact ⟨f, n, callee, args, span, List.mem_cons_self, h.1, hname, hhole,
      .stmt (.top (List.mem_cons_of_mem _ List.mem_cons_self)) (List.mem_singleton_self _)⟩
  · cases h

/-- The function and its parameter stand in the source, the expression in the text stands in its own
text, and the call reports a place in the source. -/
theorem greeting_stands :
    ∃ p, Program.parse "main" greeting = .ok p ∧
      (∃ s ∈ p.body, s.names.map (·.text) = ["greet", "name"] ∧ Stand greeting s.names) ∧
      (∃ n : Name, n.text = "name" ∧ Holds p.body greeting "name" (.var n) ∧ n.StandsIn "name") ∧
      (∃ callee args span, Holds p.body greeting greeting (.call callee args span) ∧
        ∃ t : Token, t.Cut Kind.written greeting ∧ callee.StartsWith t ∧
          span.start = t.span.start) ∧
      ∃ x ∈ Session.start.history { file := "main" } 20 p, ∃ frame ∈ x.machine.context.calls,
        frame.function = "greet" ∧ ∃ (text : String) (e : Expr),
          e.ReadFrom (fun file source => file = "main" ∧ source = greeting) text ∧
            e.callSite? = some frame.span := by
  have htest : (Program.parse "main" greeting).toOption.any (fun p => p.isGreeting &&
      (Session.start.history { file := "main" } 20 p).any fun x =>
        x.machine.context.calls.any fun frame => frame.function == "greet") = true := by decide +kernel
  obtain ⟨p, hp, htest⟩ := exists_of_toOption_any htest
  obtain ⟨hshape, hcalls⟩ := Bool.and_eq_true_iff.1 htest
  obtain ⟨x, hx, hx'⟩ := List.any_eq_true.1 hcalls
  obtain ⟨frame, hframe, hgreet⟩ := List.any_eq_true.1 hx'
  obtain ⟨f, n, callee, args, span, hf, hnames, hname, hhole, htop⟩ :=
    Program.holds_of_isGreeting hshape
  obtain ⟨hstmts, hexprs, hcall, hframes⟩ := Program.names_stand hp
  refine ⟨p, hp, ⟨.function f, hf, hnames, hstmts _ _ (.top hf)⟩,
    ⟨n, hname, hhole, (hexprs _ _ hhole).names n List.mem_cons_self⟩, ?_,
    x, hx, frame, hframe, eq_of_beq hgreet, ?_⟩
  · obtain ⟨t, hcut, hstarts, hstart, -⟩ := hcall _ _ _ _ htop
    exact ⟨callee, args, span, htop, t, hcut, hstarts, hstart⟩
  · obtain ⟨text, e, he, hsite, -⟩ :=
      hframes (fun file source => file = "main" ∧ source = greeting) .start _ 20 ⟨rfl, rfl⟩ .start x
        hx frame hframe
    exact ⟨text, e, he, hsite⟩

/-- A text with a name in it. -/
def embeddedName : String :=
  "\"$\x7bx\x7d\""

/-- A text with a call in it, of a function that fails. -/
def embeddedCall : String :=
  "fn f() \x7b\n missing\n\x7d\nlet t = \"n = $\x7bf()\x7d\""

/-- A program that is one text with a name in it, which passes the test. -/
def Program.isEmbedded (test : Name → Bool) : Program → Bool
  | ⟨_, [.expr (.text _ _ [.var n] _)]⟩ => test n
  | _ => false

theorem Program.eq_of_isEmbedded {test : Name → Bool} {p : Program} (h : p.isEmbedded test = true) :
    ∃ file template names n span, p = ⟨file, [.expr (.text template names [.var n] span)]⟩ ∧
      test n = true := by
  unfold isEmbedded at h
  split at h
  · exact ⟨_, _, _, _, _, rfl, h⟩
  · cases h

/-- Places in a text literal are not places in the source: the name is said to stand where the quote
does, and the call, which is in the fourth line, is reported to be at the beginning. -/
theorem embedded_misplaced :
    (∃ file template names n span, Program.parse "main" embeddedName =
        .ok ⟨file, [.expr (.text template names [.var n] span)]⟩ ∧
      n.text = "x" ∧ n.span.slice embeddedName = ['"']) ∧
    ∃ p fault s, Program.parse "main" embeddedCall = .ok p ∧
      Session.start.run { file := "main" } 20 p = some (.error fault, s) ∧
      s.context.failure = some "    at f (main:1:1)" := by
  have hname : (Program.parse "main" embeddedName).toOption.any (fun p => p.isEmbedded fun n =>
      n.text == "x" && n.span.slice embeddedName == ['"']) = true := by decide +kernel
  have hcall : (Program.parse "main" embeddedCall).toOption.any (fun p =>
      (Session.start.run { file := "main" } 20 p).any fun r =>
        !r.1.isOk && r.2.context.failure == some "    at f (main:1:1)") = true := by decide +kernel
  refine ⟨?_, ?_⟩
  · obtain ⟨p, hp, hname⟩ := exists_of_toOption_any hname
    obtain ⟨file, template, names, n, span, rfl, hn⟩ := Program.eq_of_isEmbedded hname
    rw [Bool.and_eq_true] at hn
    exact ⟨file, template, names, n, span, hp, eq_of_beq hn.1, eq_of_beq hn.2⟩
  · obtain ⟨p, hp, hcall⟩ := exists_of_toOption_any hcall
    obtain ⟨⟨result, s⟩, hrun, hcall⟩ := (Option.any_eq_true _ _).1 hcall
    rw [Bool.and_eq_true] at hcall
    cases result with
    | ok _ => cases hcall.1
    | error fault => exact ⟨p, fault, s, hp, hrun, eq_of_beq hcall.2⟩

end Sable
