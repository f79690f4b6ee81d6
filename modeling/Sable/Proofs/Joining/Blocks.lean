import Sable.Proofs.Joining.Expressions
import Sable.Proofs.Joining.Syntax
import Sable.Proofs.Jumps.Reading

/-!
# Blocks in front of a seam

A `Join` is a `Seam` with the number of loops and the aliases before its tokens. `Join.Carries`: what a
rule reads from `alone`, with the file ending at the seam, it reads from `amid`, with more following.
Loops are renumbered there, and no alias may stand for one of those before (`Clear`). Statements may
stop at the seam (`Stops`); a block has to be closed before it.
-/

namespace Sable

open Sable.Parser

/-- A seam with the loops and aliases that came before its tokens. -/
structure Join extends Seam where
  loops : Nat
  known : List String

namespace Join

variable (j : Join)

/-- Reading on where the file ends at the seam, with nothing before the tokens. -/
def alone (o : Progress) : Progress :=
  { o with cursor := j.ended o.cursor }

/-- Reading on where more follows the seam, behind what came before the tokens. -/
def amid (o : Progress) : Progress :=
  ⟨j.joined o.cursor, o.loops + j.loops, o.aliases ++ j.known⟩

/-- None of the aliases stands for one that came before. -/
def Clear (ds : List AliasDecl) : Prop :=
  ∀ d ∈ ds, ∀ name ∈ j.known, d.target ≠ some name

/-- Loops around a statement, with the numbers that they have behind what came before. -/
def shifted (loops : List Enclosing) : List Enclosing :=
  loops.map fun loop => { loop with id := loop.id + j.loops }

variable {j} {m : Nat} {o : Progress}

@[simp] theorem cursor_alone : (j.alone o).cursor = j.ended o.cursor := rfl

@[simp] theorem cursor_amid : (j.amid o).cursor = j.joined o.cursor := rfl

theorem advance_alone (ho : j.Within m o.cursor) (hr : o.cursor.rest ≠ []) :
    { j.alone o with cursor := (j.alone o).cursor.advance } =
      j.alone { o with cursor := o.cursor.advance } := by
  rw [cursor_alone, ho.advance_ended hr]
  rfl

theorem advance_amid (ho : j.Within m o.cursor) (hr : o.cursor.rest ≠ []) :
    { j.amid o with cursor := (j.amid o).cursor.advance } =
      j.amid { o with cursor := o.cursor.advance } := by
  rw [cursor_amid, ho.advance_joined hr]
  rfl

theorem clear_append {ds ds' : List AliasDecl} :
    j.Clear (ds ++ ds') ↔ j.Clear ds ∧ j.Clear ds' :=
  List.forall_mem_append

end Join

section Carries

variable {α β : Type} {j : Join} {i n m : Nat} {P : α → List AliasDecl → Prop}
  {Q : β → List AliasDecl → Prop} {v : α → α} {w : β → β} {o : Progress} {p q p' q' : Reader α}
  {f g : α → Reader β}

/-- Between `o` and `u` the result `a` is read with the aliases `ds` in it, and `r` is what came of
the same behind what came before, where `v` tells what becomes of the result. -/
structure Join.Carried (j : Join) (n : Nat) (P : α → List AliasDecl → Prop) (v : α → α) (o : Progress)
    (a : α) (u : Progress) (ds : List AliasDecl) (r : Except SyntaxError (α × Progress)) : Prop where
  within : j.Within n u.cursor
  declared : P a ds
  aliases : u.aliases ⊆ ds.map (·.name) ++ o.aliases
  amid : j.Clear ds → r = .ok (v a, j.amid u)

/-- What `p` reads from `o` on with the file ending at the seam, `q` reads with more following. -/
def Join.CarriesFrom (j : Join) (n : Nat) (P : α → List AliasDecl → Prop) (v : α → α) (o : Progress)
    (p q : Reader α) : Prop :=
  ∀ a t, p (j.alone o) = .ok (a, t) → ∃ u ds, t = j.alone u ∧ j.Carried n P v o a u ds (q (j.amid o))

/-- The same from wherever there are fewer than `n` tokens to the seam; at least `i` are read. -/
def Join.Carries (j : Join) (i n : Nat) (P : α → List AliasDecl → Prop) (v : α → α)
    (p q : Reader α) : Prop :=
  ∀ m o, m ≤ n → j.Within m o.cursor → j.CarriesFrom (m - i) P v o p q

/-- The same with a token at least in front of the seam. -/
def Join.CarriesIn (j : Join) (i n : Nat) (P : α → List AliasDecl → Prop) (v : α → α)
    (p q : Reader α) : Prop :=
  ∀ m o, m ≤ n → j.Within m o.cursor → o.cursor.rest ≠ [] → j.CarriesFrom (m - i) P v o p q

namespace Join

theorem names_trans {ds ds' : List AliasDecl} {xs ys zs : List String}
    (h : ys ⊆ ds.map (·.name) ++ xs) (h' : zs ⊆ ds'.map (·.name) ++ ys) :
    zs ⊆ (ds ++ ds').map (·.name) ++ xs := by
  intro x hx
  rw [List.map_append, List.append_assoc]
  rcases List.mem_append.1 (h' hx) with hx | hx
  · exact List.mem_append_right _ (List.mem_append_left _ hx)
  · rcases List.mem_append.1 (h hx) with hx | hx
    · exact List.mem_append_left _ hx
    · exact List.mem_append_right _ (List.mem_append_right _ hx)

theorem CarriesFrom.bind (hp : j.CarriesFrom m P v o p q)
    (hf : ∀ a ds u, P a ds → j.Within m u.cursor →
      j.CarriesFrom n (fun b ds' => Q b (ds ++ ds')) w u (f a) (g (v a))) :
    j.CarriesFrom n Q w o (p >>= f) (q >>= g) := by
  intro b t ht
  obtain ⟨a, t', h1, h2⟩ := bind_eq_ok.1 ht
  obtain ⟨u, ds, rfl, hu⟩ := hp a t' h1
  obtain ⟨u', ds', rfl, hu'⟩ := hf a ds u hu.declared hu.within b t h2
  refine ⟨u', ds ++ ds', rfl, hu'.within, hu'.declared, names_trans hu.aliases hu'.aliases, ?_⟩
  intro hclear
  obtain ⟨hds, hds'⟩ := clear_append.1 hclear
  exact bind_eq_ok.2 ⟨_, _, hu.amid hds, hu'.amid hds'⟩

/-- A rule that only moves the cursor declares nothing. -/
theorem CarriesFrom.lift {p q : Parser α} {C : α → Prop}
    (h : Agrees j.toSeam n (p (j.ended o.cursor)) (q (j.joined o.cursor))) (hC : Gives C p) :
    j.CarriesFrom n (fun a ds => C a ∧ ds = []) id o (liftM p) (liftM q) := by
  intro a t ht
  obtain ⟨c, hc, rfl⟩ := lift_eq_ok.1 ht
  have hp : p (j.ended o.cursor) = .ok (a, c) := hc
  rw [hp] at h
  generalize hq : q (j.joined o.cursor) = r at h
  cases h with
  | ok _ hd =>
    refine ⟨{ o with cursor := _ }, [], rfl, hd, ⟨hC _ _ _ hp, rfl⟩, List.Subset.refl _, fun _ => ?_⟩
    exact lift_eq_ok.2 ⟨_, hq, rfl⟩

theorem CarriesFrom.after {p q : Parser α} {f g : α → Reader β}
    (h : Agrees j.toSeam m (p (j.ended o.cursor)) (q (j.joined o.cursor)))
    (hf : ∀ a u, j.Within m u.cursor → j.CarriesFrom n Q w u (f a) (g a)) :
    j.CarriesFrom n Q w o (liftM p >>= f) (liftM q >>= g) := by
  have hany : Gives (fun _ => True) p := fun _ _ _ _ => trivial
  refine (CarriesFrom.lift h hany).bind fun a ds u hds hu => ?_
  obtain ⟨-, rfl⟩ := hds
  exact hf a u hu

/-- A step on both sides that declares nothing. -/
theorem CarriesFrom.step {o' : Progress} (h : j.CarriesFrom n P v o' p' q')
    (hp : p (j.alone o) = p' (j.alone o')) (hq : q (j.amid o) = q' (j.amid o'))
    (ha : o'.aliases = o.aliases) : j.CarriesFrom n P v o p q := by
  intro a t ht
  obtain ⟨u, ds, rfl, hu⟩ := h a t (hp ▸ ht)
  exact ⟨u, ds, rfl, hu.within, hu.declared, ha ▸ hu.aliases, fun hclear => hq ▸ hu.amid hclear⟩

theorem CarriesFrom.imp {P' : α → List AliasDecl → Prop} {v' : α → α}
    (h : j.CarriesFrom n P v o p q) (hP : ∀ a ds, P a ds → P' a ds ∧ v' a = v a) :
    j.CarriesFrom n P' v' o p q := by
  intro a t ht
  obtain ⟨u, ds, rfl, hu⟩ := h a t ht
  obtain ⟨hds, hv⟩ := hP a ds hu.declared
  exact ⟨u, ds, rfl, hu.within, hds, hu.aliases, fun hclear => hv ▸ hu.amid hclear⟩

theorem Carries.inside (h : j.Carries i n P v p q) : j.CarriesIn i n P v p q :=
  fun m o hm ho _ => h m o hm ho

theorem Carries.mono (h : j.Carries i n P v p q) (hm : m ≤ n) : j.Carries i m P v p q :=
  fun k o hk ho => h k o (Nat.le_trans hk hm) ho

theorem CarriesFrom.mono (h : j.CarriesFrom m P v o p q) (hn : m ≤ n) :
    j.CarriesFrom n P v o p q := by
  intro a t ht
  obtain ⟨u, ds, rfl, hu⟩ := h a t ht
  exact ⟨u, ds, rfl, hu.within.mono hn, hu.declared, hu.aliases, hu.amid⟩

theorem Carries.zero : j.Carries i 0 P v p q := by
  intro m o hm ho
  exact absurd ho.lt (by omega)

theorem CarriesIn.weak (h : j.CarriesIn i n P v p q) : j.CarriesIn 0 n P v p q :=
  fun m o hm ho hr => (h m o hm ho hr).mono (Nat.sub_le m i)

theorem Carries.weak (h : j.Carries i n P v p q) : j.Carries 0 n P v p q :=
  fun m o hm ho => (h m o hm ho).mono (Nat.sub_le m i)

/-- Where a token has to be read, nothing is read at the seam. -/
theorem Carries.not_ok (h : j.Carries 1 n P v p q) (hn : 0 < n) (hr : o.cursor.rest = []) {a : α}
    {t : Progress} : p (j.alone o) ≠ .ok (a, t) := by
  intro ht
  have ho : j.Within 1 o.cursor := by
    refine ⟨?_, ?_⟩
    · rw [hr]
      exact List.nil_suffix
    · rw [hr]
      exact Nat.one_pos
  obtain ⟨u, ds, -, hu⟩ := h 1 o hn ho a t ht
  exact absurd hu.within.lt (Nat.not_lt_zero _)

theorem CarriesIn.everywhere (h : j.CarriesIn i n P v p q)
    (hend : ∀ o a t, 0 < n → o.cursor.rest = [] → p (j.alone o) ≠ .ok (a, t)) :
    j.Carries i n P v p q := by
  intro m o hm ho
  by_cases hr : o.cursor.rest = []
  · have hlt := ho.lt
    intro a t ht
    exact absurd ht (hend o a t (by omega) hr)
  · exact h m o hm ho hr

theorem Carries.pure {a a' : α} (h : P a []) (ha : v a = a') :
    j.Carries 0 n P v (Pure.pure a) (Pure.pure a') := by
  intro m o _ ho b t ht
  cases ht
  exact ⟨o, [], rfl, ho, h, List.Subset.refl _, fun _ => by rw [ha]; rfl⟩

theorem Carries.bind (hp : j.Carries i n P v p q)
    (hf : ∀ a ds, P a ds → j.Carries 0 (n - i) (fun b ds' => Q b (ds ++ ds')) w (f a) (g (v a))) :
    j.Carries i n Q w (p >>= f) (q >>= g) :=
  fun m o hm ho => (hp m o hm ho).bind fun a ds u hds hu =>
    hf a ds hds _ u (Nat.sub_le_sub_right hm i) hu

theorem CarriesIn.bind (hp : j.CarriesIn i n P v p q)
    (hf : ∀ a ds, P a ds → j.Carries 0 (n - i) (fun b ds' => Q b (ds ++ ds')) w (f a) (g (v a))) :
    j.CarriesIn i n Q w (p >>= f) (q >>= g) :=
  fun m o hm ho hr => (hp m o hm ho hr).bind fun a ds u hds hu =>
    hf a ds hds _ u (Nat.sub_le_sub_right hm i) hu

theorem Carries.after {p q : Parser α} {f g : α → Reader β} (hp : j.Agree i n p q)
    (hf : ∀ a, j.Carries 0 (n - i) Q w (f a) (g a)) :
    j.Carries i n Q w (liftM p >>= f) (liftM q >>= g) :=
  fun m o hm ho => .after (hp m o.cursor hm ho) fun a u hu =>
    hf a _ u (Nat.sub_le_sub_right hm i) hu

theorem CarriesIn.after {p q : Parser α} {f g : α → Reader β} (hp : j.AgreeIn i n p q)
    (hf : ∀ a, j.Carries 0 (n - i) Q w (f a) (g a)) :
    j.CarriesIn i n Q w (liftM p >>= f) (liftM q >>= g) :=
  fun m o hm ho hr => .after (hp m o.cursor hm ho hr) fun a u hu =>
    hf a _ u (Nat.sub_le_sub_right hm i) hu

theorem Carries.ite {C : Prop} [Decidable C] (h : j.Carries i n P v p q)
    (h' : j.Carries i n P v p' q') : j.Carries i n P v (if C then p else p') (if C then q else q') := by
  split
  · exact h
  · exact h'

theorem CarriesIn.ite {C : Prop} [Decidable C] (h : j.CarriesIn i n P v p q)
    (h' : j.CarriesIn i n P v p' q') :
    j.CarriesIn i n P v (if C then p else p') (if C then q else q') := by
  split
  · exact h
  · exact h'

theorem Carries.lift {p q : Parser α} {C : α → Prop} (hp : j.Agree i n p q) (hC : Gives C p) :
    j.Carries i n (fun a ds => C a ∧ ds = []) id (liftM p) (liftM q) :=
  fun m o hm ho => .lift (hp m o.cursor hm ho) hC

theorem CarriesIn.lift {p q : Parser α} {C : α → Prop} (hp : j.AgreeIn i n p q) (hC : Gives C p) :
    j.CarriesIn i n (fun a ds => C a ∧ ds = []) id (liftM p) (liftM q) :=
  fun m o hm ho hr => .lift (hp m o.cursor hm ho hr) hC

theorem Carries.unexpected (what : String) : j.Carries i n P v (liftM (Parser.unexpected what)) q := by
  intro m o _ _ a t ht
  cases ht

/-- The next loop has the number that follows those of the loops before. -/
theorem Carries.newLoop {f g : Nat → Reader β} (h : ∀ id, j.Carries i n Q w (f id) (g (id + j.loops))) :
    j.Carries i n Q w (Reader.newLoop >>= f) (Reader.newLoop >>= g) := by
  intro m o hm ho
  refine (h (o.loops + 1) m { o with loops := o.loops + 1 } hm ho).step rfl ?_ rfl
  show g (o.loops + j.loops + 1) ⟨_, o.loops + j.loops + 1, _⟩ = _
  rw [Nat.add_right_comm]
  rfl

/-- A semicolon that is asked for is in front of the seam, where the file ends there. -/
theorem Carries.semicolon {f g : Token → Reader β} (h : ∀ t, j.Carries 0 n Q w (f t) (g t)) :
    j.Carries 0 n Q w (do f (← expect (.symbol .semicolon))) (do g (← expect (.symbol .semicolon))) := by
  refine CarriesIn.everywhere (.after Seam.AgreeIn.expect.weak h) fun o b t _ hr ht => ?_
  obtain ⟨token, t₁, h1, -⟩ := bind_eq_ok.1 ht
  obtain ⟨c, hc, -⟩ := lift_eq_ok.1 h1
  rw [expect_eq, cursor_alone, Seam.here_ended_nil hr, j.finish_kind, if_neg (by decide)] at hc
  cases hc

/-! ### Rules that go by the token in front -/

theorem CarriesIn.kind {f g : Kind → Reader β} (h : ∀ k, j.CarriesIn i n Q w (f k) (g k)) :
    j.CarriesIn i n Q w (liftM Parser.kind >>= f) (liftM Parser.kind >>= g) := by
  intro m o hm ho hr
  refine (h o.cursor.here.kind m o hm ho hr).step ?_ ?_ rfl
  · rw [lift_kind_bind, cursor_alone, Seam.here_ended hr]
  · rw [lift_kind_bind, cursor_amid, Seam.here_joined hr]

theorem Carries.kind {f g : Kind → Reader β} (h : ∀ k, j.CarriesIn i n Q w (f k) (g k))
    (hend : ∀ k, ¬ k.IsInner → j.Carries i n Q w (f .endOfFile) (g k)) :
    j.Carries i n Q w (liftM Parser.kind >>= f) (liftM Parser.kind >>= g) := by
  intro m o hm ho
  by_cases hr : o.cursor.rest = []
  · refine (hend j.next.kind j.next_kind m o hm ho).step ?_ ?_ rfl
    · rw [lift_kind_bind, cursor_alone, Seam.here_ended_nil hr, j.finish_kind]
    · rw [lift_kind_bind, cursor_amid, Seam.here_joined_nil hr]
  · exact CarriesIn.kind h m o hm ho hr

theorem Carries.ifKind {k : Kind} (hk : k.IsInner) (h : j.CarriesIn i n P v p q)
    (h' : j.Carries i n P v p' q') :
    j.Carries i n P v (do if (← Parser.kind) = k then p else p')
      (do if (← Parser.kind) = k then q else q') := by
  refine .kind (fun k' => ?_) fun k' hk' => ?_
  · split
    · exact h
    · exact h'.inside
  · rw [if_neg hk.ne_endOfFile.symm, if_neg (by rintro rfl; exact hk' hk)]
    exact h'

theorem lift_test_bind {test : Parser Bool} {yes : Bool} {f : Bool → Reader β}
    (hrun : test o.cursor = .ok (yes, o.cursor)) : (liftM test >>= f) o = f yes o := by
  show (Reader.onCursor test o >>= _) = _
  rw [Reader.onCursor, hrun]
  rfl

theorem CarriesIn.test {test : Parser Bool} {f g : Bool → Reader β} (ht : j.Tests test)
    (h : ∀ yes, j.CarriesIn i n Q w (f yes) (g yes)) :
    j.CarriesIn i n Q w (liftM test >>= f) (liftM test >>= g) := by
  intro m o hm ho hr
  obtain ⟨yes, hended, hjoined, -⟩ := ht o.cursor
  exact (h yes m o hm ho hr).step (lift_test_bind hended) (lift_test_bind hjoined) rfl

theorem Carries.test {test : Parser Bool} {f g : Bool → Reader β} (ht : j.Tests test)
    (h : j.CarriesIn i n Q w (f true) (g true)) (h' : j.Carries i n Q w (f false) (g false)) :
    j.Carries i n Q w (liftM test >>= f) (liftM test >>= g) := by
  intro m o hm ho
  obtain ⟨yes, hended, hjoined, hyes⟩ := ht o.cursor
  have hboth : j.CarriesFrom (m - i) Q w o (f yes) (g yes) := by
    cases yes with
    | true => exact h m o hm ho (hyes rfl)
    | false => exact h' m o hm ho
  exact hboth.step (lift_test_bind hended) (lift_test_bind hjoined) rfl

theorem Carries.accept {k : Kind} {f g : Bool → Reader β} (hk : k.IsInner)
    (h : j.Carries (i - 1) (n - 1) Q w (f true) (g true))
    (h' : j.Carries i n Q w (f false) (g false)) :
    j.Carries i n Q w (liftM (Parser.accept k) >>= f) (liftM (Parser.accept k) >>= g) := by
  intro m o hm ho
  by_cases hend : (j.ended o.cursor).here.kind = k
  · have hr := Seam.ne_nil_of_kind hk.ne_endOfFile hend
    have hrest := h (m - 1) { o with cursor := o.cursor.advance } (by omega) (ho.advance hr)
    refine (hrest.mono (by have := ho.lt; omega : m - 1 - (i - 1) ≤ m - i)).step ?_ ?_ rfl
    · rw [lift_accept_bind, advance_alone ho hr, cursor_alone, if_pos hend]
    · rw [lift_accept_bind, advance_amid ho hr, cursor_amid, if_pos ((Seam.kind_joined hk).2 hend)]
  · refine (h' m o hm ho).step ?_ ?_ rfl
    · rw [lift_accept_bind, cursor_alone, if_neg hend]
    · rw [lift_accept_bind, cursor_amid, if_neg (mt (Seam.kind_joined hk).1 hend)]

end Join

end Carries

/-! ### Blocks -/

section Closing

variable {α β : Type} {j : Join} {n : Nat} {P : α → List AliasDecl → Prop}
  {Q : β → List AliasDecl → Prop} {v : α → α} {w : β → β} {close : Kind} {p q : Reader α}

/-- What `p` reads up to a closing token with the file ending at the seam, `q` reads with more
following. -/
def Join.CarriesTo (j : Join) (close : Kind) (n : Nat) (P : α → List AliasDecl → Prop) (v : α → α)
    (p q : Reader α) : Prop :=
  ∀ m o a t, m ≤ n → j.Within m o.cursor → p (j.alone o) = .ok (a, t) →
    ∃ u ds, t = j.alone u ∧ j.Within m u.cursor ∧ P a ds ∧
      u.aliases ⊆ ds.map (·.name) ++ o.aliases ∧
      ((j.ended u.cursor).here.kind = close → j.Clear ds → q (j.amid o) = .ok (v a, j.amid u))

/-- The closing token is asked for, so that reading did not stop at the seam. -/
theorem Join.CarriesTo.closing {f g : α → Token → Reader β} (hk : close.IsInner)
    (h : j.CarriesTo close n P v p q)
    (hf : ∀ a ds t, P a ds → j.Carries 0 n (fun b ds' => Q b (ds ++ ds')) w (f a t) (g (v a) t)) :
    j.Carries 0 n Q w (do let a ← p; f a (← expect close)) (do let a ← q; g a (← expect close)) := by
  intro m o hm ho b t ht
  obtain ⟨a, t₁, h1, h2⟩ := bind_eq_ok.1 ht
  obtain ⟨u, ds, rfl, hu, hds, hnames, hamid⟩ := h m o a t₁ hm ho h1
  have hclose : (j.ended u.cursor).here.kind = close := by
    obtain ⟨token, t₂, h3, -⟩ := bind_eq_ok.1 h2
    obtain ⟨c, hc, -⟩ := lift_eq_ok.1 h3
    rw [expect_eq] at hc
    by_cases hkind : (j.ended u.cursor).here.kind = close
    · exact hkind
    · rw [cursor_alone, if_neg hkind] at hc
      cases hc
  have hrest : j.Carries 0 n (fun b ds' => Q b (ds ++ ds')) w (do f a (← expect close))
      (do g (v a) (← expect close)) :=
    .after (Seam.Agree.expect hk).weak fun t => hf a ds t hds
  obtain ⟨u', ds', rfl, hu'⟩ := hrest m u hm hu b t h2
  refine ⟨u', ds ++ ds', rfl, hu'.within, hu'.declared, names_trans hnames hu'.aliases, ?_⟩
  intro hclear
  obtain ⟨hds, hds'⟩ := clear_append.1 hclear
  exact bind_eq_ok.2 ⟨_, _, hamid hclose hds, hu'.amid hds'⟩

end Closing

namespace Reader

theorem statementsUntil_succ (close : Kind) (rule : Reader Stmt) (b : Nat) (o : Progress) :
    statementsUntil close rule (b + 1) o =
      if o.cursor.here.kind = close ∨ o.cursor.here.kind = .endOfFile then .ok ([], o)
      else if o.cursor.here.kind = .symbol .semicolon then
        statementsUntil close rule b { o with cursor := o.cursor.advance }
      else (do
        let first ← rule
        return first :: (← statementsUntil close rule b) : Reader (List Stmt)) o := by
  simp only [statementsUntil, lift_kind_bind, ite_run, lift_accept_bind]
  rfl

theorem itemsUntil_succ {α : Type} (close : Kind) (item : Reader α) (b : Nat) (o : Progress) :
    itemsUntil close item (b + 1) o =
      if o.cursor.here.kind = close ∨ o.cursor.here.kind = .endOfFile then .ok ([], o)
      else if o.cursor.here.kind = .symbol .comma ∨ o.cursor.here.kind = .symbol .semicolon then
        itemsUntil close item b { o with cursor := o.cursor.advance }
      else (do
        let first ← item
        return first :: (← itemsUntil close item b) : Reader (List α)) o := by
  simp only [itemsUntil, lift_kind_bind, ite_run]
  rfl

theorem gives_openBlock : Gives Kind.IsInner openBlock := by
  refine .bind fun _ => .ite (.pure (by decide)) (.bind fun _ => .ite (.pure (by decide)) ?_)
  intro c a c' h
  cases h

theorem agree_openBlock {s : Seam} {n : Nat} : s.Agree 1 n openBlock openBlock :=
  .accept (by decide) (.pure _) (.accept (by decide) (.pure _) (.unexpected _))

end Reader

open Reader Stmt

/-- What a statement that is read becomes behind what came before, and the aliases in it. -/
abbrev Join.CarriesStmt (j : Join) (i n : Nat) (p q : Reader Stmt) : Prop :=
  j.Carries i n (fun s ds => ds ⊆ aliases [s]) (renumber j.loops) p q

abbrev Join.CarriesBody (j : Join) (i n : Nat) (p q : Reader (List Stmt)) : Prop :=
  j.Carries i n (fun body ds => ds ⊆ aliases body) (renumberAll j.loops) p q

section Blocks

variable {j : Join} {n m k b : Nat} {close : Kind} {rule rule' : Reader Stmt} {o u : Progress}
  {s : Stmt} {body : List Stmt} {ds ds' : List AliasDecl}

/-- Statements are read up to `u`, where the closing token or the seam stops them. Behind what came
before they are read too, and reading goes on at `u` with the budget that is left. -/
structure Join.Stops (j : Join) (m k : Nat) (close : Kind) (rule : Reader Stmt) (b : Nat)
    (o : Progress) (body : List Stmt) (u : Progress) (ds : List AliasDecl) : Prop where
  le : k ≤ m
  within : j.Within k u.cursor
  declared : ds ⊆ Stmt.aliases body
  aliases : u.aliases ⊆ ds.map (·.name) ++ o.aliases
  stopped : (j.ended u.cursor).here.kind = close ∨ u.cursor.rest = []
  amid : j.Clear ds → ∃ left, b + k ≤ left + m ∧ statementsUntil close rule b (j.amid o) =
    (statementsUntil close rule left (j.amid u)).map fun x => (renumberAll j.loops body ++ x.1, x.2)

namespace Join

theorem Stops.here (ho : j.Within m o.cursor)
    (h : (j.ended o.cursor).here.kind = close ∨ o.cursor.rest = []) :
    j.Stops m m close rule' b o [] o [] := by
  refine ⟨Nat.le_refl m, ho, List.nil_subset _, List.Subset.refl _, h, ?_⟩
  refine fun _ => ⟨b, Nat.le_refl _, ?_⟩
  generalize statementsUntil close rule' b (j.amid o) = r
  cases r <;> rfl

theorem Stops.semicolon (ho : j.Within m o.cursor) (hr : o.cursor.rest ≠ [])
    (hstop : ¬ (o.cursor.here.kind = close ∨ o.cursor.here.kind = .endOfFile))
    (hk : o.cursor.here.kind = .symbol .semicolon)
    (h : j.Stops (m - 1) k close rule' b { o with cursor := o.cursor.advance } body u ds) :
    j.Stops m k close rule' (b + 1) o body u ds := by
  have hlt := ho.lt
  have hle := h.le
  refine ⟨by omega, h.within, h.declared, h.aliases, h.stopped, fun hclear => ?_⟩
  obtain ⟨left, hleft, heq⟩ := h.amid hclear
  refine ⟨left, by omega, ?_⟩
  rw [statementsUntil_succ, advance_amid ho hr, cursor_amid, Seam.here_joined hr, if_neg hstop,
    if_pos hk, heq]

theorem Stops.statement (ho : j.Within m o.cursor) (hr : o.cursor.rest ≠ [])
    (hstop : ¬ (o.cursor.here.kind = close ∨ o.cursor.here.kind = .endOfFile))
    (hk : o.cursor.here.kind ≠ .symbol .semicolon) {o' : Progress}
    (hs : j.Carried (m - 1) (fun s ds => ds ⊆ Stmt.aliases [s]) (renumber j.loops) o s o' ds
      (rule' (j.amid o)))
    (h : j.Stops (m - 1) k close rule' b o' body u ds') :
    j.Stops m k close rule' (b + 1) o (s :: body) u (ds ++ ds') := by
  have hlt := ho.lt
  have hle := h.le
  refine ⟨by omega, h.within, append_subset_aliases hs.declared h.declared,
    names_trans hs.aliases h.aliases, h.stopped, fun hclear => ?_⟩
  obtain ⟨hds, hds'⟩ := clear_append.1 hclear
  obtain ⟨left, hleft, heq⟩ := h.amid hds'
  refine ⟨left, by omega, ?_⟩
  rw [statementsUntil_succ, cursor_amid, Seam.here_joined hr, if_neg hstop, if_neg hk]
  show (rule' (j.amid o) >>= _) = _
  rw [hs.amid hds]
  show (statementsUntil close rule' b (j.amid o') >>= _) = _
  rw [heq]
  generalize statementsUntil close rule' left (j.amid u) = r
  cases r <;> rfl

/-- Statements that are read where the file ends at the seam stop at a closing token or there. -/
theorem CarriesStmt.stops (h : j.CarriesStmt 1 n rule rule') :
    ∀ {b : Nat} (b' : Nat) {m : Nat} {o t : Progress} {body : List Stmt}, m ≤ n → m ≤ b → m ≤ b' →
      j.Within m o.cursor → statementsUntil close rule b (j.alone o) = .ok (body, t) →
      ∃ k u ds, t = j.alone u ∧ j.Stops m k close rule' b' o body u ds
  | 0, _, m, o, _, _, _, hb, _, ho, _ => absurd ho.lt (by omega)
  | b + 1, 0, m, o, _, _, _, _, hb', ho, _ => absurd ho.lt (by omega)
  | b + 1, b' + 1, m, o, t, body, hm, hb, hb', ho, hr => by
    -- at the seam the first reading stops in any case; the second one may go on, so there and at a
    -- closing token nothing is said of it yet
    rw [statementsUntil_succ] at hr
    by_cases hne : o.cursor.rest = []
    · rw [cursor_alone, Seam.here_ended_nil hne, if_pos (.inr j.finish_kind)] at hr
      cases hr
      exact ⟨m, o, [], rfl, .here ho (.inr hne)⟩
    have hhere : (j.alone o).cursor.here = o.cursor.here := Seam.here_ended hne
    rw [hhere] at hr
    by_cases hstop : o.cursor.here.kind = close ∨ o.cursor.here.kind = .endOfFile
    · rw [if_pos hstop] at hr
      cases hr
      have hclose := hstop.resolve_right (ho.kind_ne hne)
      exact ⟨m, o, [], rfl, .here ho (.inl (by rwa [Seam.here_ended hne]))⟩
    rw [if_neg hstop] at hr
    by_cases hsemi : o.cursor.here.kind = .symbol .semicolon
    · rw [if_pos hsemi, advance_alone ho hne] at hr
      obtain ⟨k, u, ds, rfl, hu⟩ :=
        stops h b' (by omega) (by omega) (by omega) (ho.advance hne) hr
      exact ⟨k, u, ds, rfl, hu.semicolon ho hne hstop hsemi⟩
    · rw [if_neg hsemi] at hr
      obtain ⟨first, t', h1, h2⟩ := bind_eq_ok.1 hr
      obtain ⟨rest, t'', h3, h4⟩ := bind_eq_ok.1 h2
      cases h4
      obtain ⟨o', ds, rfl, hs⟩ := h m o hm ho first t' h1
      obtain ⟨k, u, ds', rfl, hu⟩ := stops h b' (by omega) (by omega) (by omega) hs.within h3
      exact ⟨k, u, ds ++ ds', rfl, .statement ho hne hstop hsemi hs hu⟩

/-- A closing token stops statements in both readings. -/
theorem Stops.closed (hk : close.IsInner) (h : j.Stops m k close rule' b o body u ds)
    (hb : m ≤ b) (hclose : (j.ended u.cursor).here.kind = close) (hclear : j.Clear ds) :
    statementsUntil close rule' b (j.amid o) = .ok (renumberAll j.loops body, j.amid u) := by
  obtain ⟨left, hleft, heq⟩ := h.amid hclear
  have hlt := h.within.lt
  obtain ⟨left, rfl⟩ : ∃ left', left = left' + 1 := ⟨left - 1, by omega⟩
  have hjoined : (j.joined u.cursor).here.kind = close := (Seam.kind_joined hk).2 hclose
  rw [heq, statementsUntil_succ, cursor_amid, if_pos (.inl hjoined)]
  show Except.ok (renumberAll j.loops body ++ [], j.amid u) = _
  rw [List.append_nil]

theorem CarriesStmt.toClose {b b' : Nat} (hk : close.IsInner) (h : j.CarriesStmt 1 n rule rule')
    (hb : n ≤ b) (hb' : n ≤ b') :
    j.CarriesTo close n (fun body ds => ds ⊆ aliases body) (renumberAll j.loops)
      (statementsUntil close rule b) (statementsUntil close rule' b') := by
  intro m o body t hm ho ht
  obtain ⟨k, u, ds, rfl, hu⟩ := h.stops b' hm (by omega) (by omega) ho ht
  refine ⟨u, ds, rfl, hu.within.mono hu.le, hu.declared, hu.aliases, fun hclose hclear => ?_⟩
  exact hu.closed hk (by omega) hclose hclear

theorem carries_block {b b' : Nat} (h : j.CarriesStmt 1 n rule rule') (hb : n ≤ b) (hb' : n ≤ b') :
    j.CarriesBody 1 (n + 1) (block rule b) (block rule' b') := by
  refine (Carries.lift agree_openBlock gives_openBlock).bind fun close ds hclose => ?_
  obtain ⟨hinner, rfl⟩ := hclose
  refine (h.toClose hinner hb hb').closing hinner fun body ds _ hds => ?_
  exact .pure (by rwa [List.append_nil]) rfl

/-- A statement that has nothing inside but its body declares what its body declares. -/
theorem Carries.wrap {p q : Reader (List Stmt)} {wrap wrap' : List Stmt → Stmt} {i : Nat}
    (hp : j.CarriesBody i n p q) (hinside : ∀ body, (wrap body).inside = all body)
    (hwrap : ∀ body, renumber j.loops (wrap body) = wrap' (renumberAll j.loops body)) :
    j.CarriesStmt i n (do return wrap (← p)) (do return wrap' (← q)) := by
  refine hp.bind fun body ds hds => .pure ?_ (hwrap body)
  rw [List.append_nil]
  exact List.Subset.trans hds (aliases_of_inside (hinside body))

end Join

end Blocks

section Items

variable {α : Type} {j : Join} {n : Nat} {close : Kind} {P : α → List AliasDecl → Prop}
  {R : List α → List AliasDecl → Prop} {v : α → α} {item item' : Reader α} (hnil : R [] [])
  (hcons : ∀ a as ds ds', P a ds → R as ds' → R (a :: as) (ds ++ ds'))
  (h : j.Carries 1 n P v item item')
include hnil hcons h

namespace Join

/-- Declarations up to a closing token, at a point where fewer than `m` tokens are left. -/
theorem carries_items (hk : close.IsInner) : ∀ {b b' m : Nat} {o t : Progress} {items : List α},
    m ≤ n → m ≤ b → m ≤ b' → j.Within m o.cursor →
    itemsUntil close item b (j.alone o) = .ok (items, t) →
    ∃ u ds, t = j.alone u ∧ j.Within m u.cursor ∧ R items ds ∧
      u.aliases ⊆ ds.map (·.name) ++ o.aliases ∧
      ((j.ended u.cursor).here.kind = close → j.Clear ds →
        itemsUntil close item' b' (j.amid o) = .ok (items.map v, j.amid u))
  | 0, _, m, o, _, _, _, hb, _, ho, _ => absurd ho.lt (by omega)
  | b + 1, 0, m, o, _, _, _, _, hb', ho, _ => absurd ho.lt (by omega)
  | b + 1, b' + 1, m, o, t, items, hm, hb, hb', ho, hr => by
    rw [itemsUntil_succ] at hr
    by_cases hne : o.cursor.rest = []
    · have hend := j.finish_kind
      rw [cursor_alone, Seam.here_ended_nil hne, if_pos (.inr hend)] at hr
      cases hr
      refine ⟨o, [], rfl, ho, hnil, List.Subset.refl _, fun hclose => ?_⟩
      rw [Seam.here_ended_nil hne, hend] at hclose
      exact absurd hclose.symm hk.ne_endOfFile
    have hhere : (j.alone o).cursor.here = o.cursor.here := Seam.here_ended hne
    rw [itemsUntil_succ, cursor_amid, Seam.here_joined hne]
    rw [hhere] at hr
    by_cases hstop : o.cursor.here.kind = close ∨ o.cursor.here.kind = .endOfFile
    · rw [if_pos hstop] at hr ⊢
      cases hr
      exact ⟨o, [], rfl, ho, hnil, List.Subset.refl _, fun _ _ => rfl⟩
    rw [if_neg hstop] at hr ⊢
    by_cases hskip : o.cursor.here.kind = .symbol .comma ∨ o.cursor.here.kind = .symbol .semicolon
    · rw [if_pos hskip] at hr ⊢
      rw [advance_alone ho hne] at hr
      rw [← cursor_amid, advance_amid ho hne]
      obtain ⟨u, ds, rfl, hu, hrest⟩ :=
        carries_items hk (by omega) (by omega) (by omega : m - 1 ≤ b') (ho.advance hne) hr
      exact ⟨u, ds, rfl, hu.mono (Nat.sub_le m 1), hrest⟩
    · rw [if_neg hskip] at hr ⊢
      obtain ⟨first, t₁, h1, h2⟩ := bind_eq_ok.1 hr
      obtain ⟨rest, t₂, h3, h4⟩ := bind_eq_ok.1 h2
      cases h4
      obtain ⟨o', ds, rfl, hs⟩ := h m o hm ho first t₁ h1
      obtain ⟨u, ds', rfl, hu, hR, hnames, hamid⟩ :=
        carries_items hk (by omega) (by omega) (by omega : m - 1 ≤ b') hs.within h3
      refine ⟨u, ds ++ ds', rfl, hu.mono (Nat.sub_le m 1), hcons _ _ _ _ hs.declared hR,
        names_trans hs.aliases hnames, fun hclose hclear => ?_⟩
      obtain ⟨hds, hds'⟩ := clear_append.1 hclear
      exact bind_eq_ok.2 ⟨_, _, hs.amid hds, bind_eq_ok.2 ⟨_, _, hamid hclose hds', rfl⟩⟩

theorem carries_itemBlock {b b' : Nat} (hb : n ≤ b) (hb' : n ≤ b') :
    j.Carries 1 (n + 1) (fun x => R x.1) (fun x => (x.1.map v, x.2)) (itemBlock item b)
      (itemBlock item' b') := by
  have hblock (start : Span) : j.Carries 1 (n + 1) (fun x => R x.1) (fun x => (x.1.map v, x.2))
      (do
        let close ← openBlock
        let items ← itemsUntil close item b
        let last ← expect close
        return (items, start.upTo last.span) : Reader (List α × Span))
      (do
        let close ← openBlock
        let items ← itemsUntil close item' b'
        let last ← expect close
        return (items, start.upTo last.span)) := by
    refine (Carries.lift agree_openBlock gives_openBlock).bind fun close ds hclose => ?_
    obtain ⟨hinner, rfl⟩ := hclose
    have hitems : j.CarriesTo close n R (List.map v) (itemsUntil close item b)
        (itemsUntil close item' b') := fun m o items t hm ho ht =>
      carries_items hnil hcons h hinner hm (by omega) (by omega) ho ht
    exact hitems.closing hinner fun items ds _ hds => .pure (by rwa [List.append_nil]) rfl
  refine CarriesIn.everywhere (fun m o hm ho hr => ?_) fun o x t hn hr => ?_
  · have hhere : (j.alone o).cursor.here = (j.amid o).cursor.here :=
      (Seam.here_ended hr).trans (Seam.here_joined hr).symm
    refine (hblock (j.alone o).cursor.here.span m o hm ho).step rfl ?_ rfl
    rw [hhere]
    rfl
  · exact (hblock (j.alone o).cursor.here.span).not_ok hn hr

end Join

end Items

end Sable
