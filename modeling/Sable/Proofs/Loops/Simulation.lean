import Sable.Proofs.Loops.Readings

/-!
# Evaluations from twin machines

`Pairs n k R`: from machines with `Machine.Twin` two evaluations end in the same way with results
related by `R` and leave twin machines. Scopes are only added, so what is related before an evaluation
is related after it. One lemma for each way to combine evaluations.
-/

namespace Sable

variable {ω ω' : Type} {α β γ δ : Type} {n k j : Nat}

/-- From twin machines with `k` scopes or more the evaluations come to ends that correspond, `R` being
the relation between results when there are so many scopes. -/
def Pairs (n k : Nat) (R : Nat → α → β → Prop) (e : Eval ω α) (e' : Eval ω' β) : Prop :=
  ∀ (m m' : Machine) (w : ω) (w' : ω'), m.Twin n m' → k ≤ m.store.scopes.size →
    Outcome.Twin n (fun j a b => m.store.scopes.size ≤ j ∧ R j a b) (e m w) (e' m' w')

/-- The results are the same. -/
def Agree (_ : Nat) (a b : α) : Prop :=
  a = b

theorem Outcome.Twin.imp {R S : Nat → α → β → Prop} {o : Outcome ω α} {o' : Outcome ω' β}
    (h : o.Twin n R o') (hRS : ∀ j a b, R j a b → S j a b) : o.Twin n S o' := by
  cases h with
  | done hm h => exact .done hm (hRS _ _ _ h)
  | failed hm => exact .failed hm
  | exhausted => exact .exhausted

namespace Pairs

variable {R : Nat → α → β → Prop} {S : Nat → γ → δ → Prop} {e : Eval ω α} {e' : Eval ω' β}

theorem mono (h : Pairs n k R e e') (hj : k ≤ j) : Pairs n j R e e' :=
  fun m m' w w' hm hsize => h m m' w w' hm (Nat.le_trans hj hsize)

theorem pure {a : α} {b : β} (h : ∀ j, k ≤ j → R j a b) :
    Pairs n k R (Pure.pure a : Eval ω α) (Pure.pure b : Eval ω' β) :=
  fun _ _ _ _ hm hsize => .done hm ⟨Nat.le_refl _, h _ hsize⟩

theorem value {v v' : Value} (h : v.Twin n k v') :
    Pairs n k (Value.Twin n) (Pure.pure v : Eval ω Value) (Pure.pure v' : Eval ω' Value) :=
  .pure fun _ hj => h.mono hj

theorem same (a : α) : Pairs n k Agree (Pure.pure a : Eval ω α) (Pure.pure a : Eval ω' α) :=
  .pure fun _ _ => rfl

theorem stuck : Pairs n k R (Eval.stuck : Eval ω α) (Eval.stuck : Eval ω' β) :=
  fun _ _ _ _ _ _ => .exhausted

/-- What comes after is paired if it is so with all the scopes that there are by then. -/
theorem bind {f : α → Eval ω γ} {f' : β → Eval ω' δ} (h : Pairs n k R e e')
    (hf : ∀ j, k ≤ j → ∀ a b, R j a b → Pairs n j S (f a) (f' b)) :
    Pairs n k S (e >>= f) (e' >>= f') := by
  intro m m' w w' hm hsize
  have he := h m m' w w' hm hsize
  show Outcome.Twin n _ (Eval.bind e f m w) (Eval.bind e' f' m' w')
  unfold Eval.bind
  generalize e m w = o at he ⊢
  generalize e' m' w' = o' at he ⊢
  cases he with
  | done hm₁ hab =>
    obtain ⟨hgrown, hab⟩ := hab
    have hrest := hf _ (Nat.le_trans hsize hgrown) _ _ hab _ _ ‹_› ‹_› hm₁ (Nat.le_refl _)
    exact hrest.imp fun j c d hcd => ⟨Nat.le_trans hgrown hcd.1, hcd.2⟩
  | failed hm₁ => exact .failed hm₁
  | exhausted => exact .exhausted

theorem bind_same {e : Eval ω α} {e' : Eval ω' α} {f : α → Eval ω γ} {f' : α → Eval ω' δ}
    (h : Pairs n k Agree e e') (hf : ∀ a, Pairs n k S (f a) (f' a)) :
    Pairs n k S (e >>= f) (e' >>= f') := by
  refine h.bind fun j hj a b hab => ?_
  cases hab
  exact (hf a).mono hj

theorem ite {p : Prop} [Decidable p] {f : Eval ω α} {f' : Eval ω' β} (h : p → Pairs n k R e e')
    (hf : ¬ p → Pairs n k R f f') : Pairs n k R (if p then e else f) (if p then e' else f') := by
  split
  · exact h ‹_›
  · exact hf ‹_›

/-- Asks both stores. -/
theorem ask {f : Store → α} {f' : Store → β}
    (h : ∀ s s' : Store, s.Twin n s' → k ≤ s.scopes.size → R s.scopes.size (f s) (f' s')) :
    Pairs n k R (Eval.ask f : Eval ω α) (Eval.ask f' : Eval ω' β) :=
  fun _ _ _ _ hm hsize => .done hm ⟨Nat.le_refl _, h _ _ hm.store hsize⟩

/-- Asks both stores for something that is the same in them. -/
theorem look {f f' : Store → α} (h : ∀ s s' : Store, s.Twin n s' → f s = f' s') :
    Pairs n k Agree (Eval.ask f : Eval ω α) (Eval.ask f' : Eval ω' α) :=
  .ask fun s s' hs _ => h s s' hs

/-- Asks both contexts, which are the same. -/
theorem consult (f : Context → α) :
    Pairs n k Agree (Eval.consult f : Eval ω α) (Eval.consult f : Eval ω' α) :=
  fun _ _ _ _ hm _ => .done hm ⟨Nat.le_refl _, congrArg f hm.context.symm⟩

/-- Results that correspond still do so when something has been done at the end. -/
theorem ending {done failed : Eval ω Unit} {done' failed' : Eval ω' Unit} (h : Pairs n k R e e')
    (hR : ∀ i j a b, i ≤ j → R i a b → R j a b) (hdone : Pairs n 0 Agree done done')
    (hfailed : Pairs n 0 Agree failed failed') :
    Pairs n k R (Eval.ending e done failed) (Eval.ending e' done' failed') := by
  intro m m' w w' hm hsize
  have he := h m m' w w' hm hsize
  unfold Eval.ending
  generalize e m w = o at he ⊢
  generalize e' m' w' = o' at he ⊢
  cases he with
  | @done a b m₁ m₁' w₁ w₁' hm₁ hab =>
    obtain ⟨hgrown, hab⟩ := hab
    have hlast : Pairs n m₁.store.scopes.size R (done >>= fun _ => Pure.pure a)
        (done' >>= fun _ => Pure.pure b) :=
      (hdone.mono (Nat.zero_le _)).bind_same fun _ => .pure fun j hj => hR _ j a b hj hab
    refine (hlast m₁ m₁' w₁ w₁' hm₁ (Nat.le_refl _)).imp fun j c d hcd => ?_
    exact ⟨Nat.le_trans hgrown hcd.1, hcd.2⟩
  | @failed fault m₁ m₁' w₁ w₁' hm₁ =>
    -- a fault that goes on gives no result
    have hpass : Pairs n 0 (fun _ _ _ => False) (Eval.pass fault : Eval ω α)
        (Eval.pass fault : Eval ω' β) := fun _ _ _ _ hm _ => .failed hm
    have hlast := (hfailed.bind_same fun _ => hpass) m₁ m₁' w₁ w₁' hm₁ (Nat.zero_le _)
    exact hlast.imp fun _ _ _ hnone => hnone.2.elim
  | exhausted => exact .exhausted

variable [Observer ω] [Observer ω']

theorem report (event event' : Event) :
    Pairs n k Agree (Eval.report event : Eval ω Unit) (Eval.report event' : Eval ω' Unit) :=
  fun _ _ _ _ hm _ => .done hm ⟨Nat.le_refl _, rfl⟩

theorem raise (fault : Fault) :
    Pairs n k R (Eval.raise fault : Eval ω α) (Eval.raise fault : Eval ω' β) :=
  fun _ _ _ _ hm _ => .failed hm

theorem query {f : Store → Except Fault α} {f' : Store → Except Fault β}
    (h : ∀ s s' : Store, s.Twin n s' → k ≤ s.scopes.size → Answers (R s.scopes.size) (f s) (f' s')) :
    Pairs n k R (Eval.query f : Eval ω α) (Eval.query f' : Eval ω' β) := by
  intro m m' w w' hm hsize
  have hanswer := h _ _ hm.store hsize
  unfold Eval.query
  generalize f m.store = x at hanswer ⊢
  generalize f' m'.store = y at hanswer ⊢
  cases hanswer with
  | ok hab => exact .done hm ⟨Nat.le_refl _, hab⟩
  | error fault => exact .failed hm

theorem check {f f' : Store → Except Fault α} (h : ∀ s s' : Store, s.Twin n s' → f s = f' s') :
    Pairs n k Agree (Eval.query f : Eval ω α) (Eval.query f' : Eval ω' α) := by
  refine .query fun s s' hs _ => ?_
  rw [h s s' hs]
  cases f' s' with
  | ok a => exact .ok rfl
  | error fault => exact .error fault

theorem resolve (types : List TypeExpr) {f f' : Store → Except Fault α}
    (h : ∀ s s' : Store, s.Twin n s' → f s = f' s') :
    Pairs n k Agree (Eval.resolve types f : Eval ω α) (Eval.resolve types f' : Eval ω' α) :=
  (report _ _).bind_same fun _ => check h

theorem create {f : Store → α × Store} {f' : Store → β × Store} {event : α → Event}
    {event' : β → Event} (h : ∀ s s' : Store, s.Twin n s' → k ≤ s.scopes.size →
      s.scopes.size ≤ (f s).2.scopes.size ∧ (f s).2.Twin n (f' s').2 ∧
        R (f s).2.scopes.size (f s).1 (f' s').1) :
    Pairs n k R (Eval.create f event : Eval ω α) (Eval.create f' event' : Eval ω' β) := by
  intro m m' w w' hm hsize
  obtain ⟨hgrown, hstore, hab⟩ := h _ _ hm.store hsize
  exact .done ⟨hstore, hm.context⟩ ⟨hgrown, hab⟩

theorem change {f f' : Store → Store} {event event' : Event}
    (h : ∀ s s' : Store, s.Twin n s' → k ≤ s.scopes.size →
      (f s).scopes.size = s.scopes.size ∧ (f s).Twin n (f' s')) :
    Pairs n k Agree (Eval.change f event : Eval ω Unit) (Eval.change f' event' : Eval ω' Unit) := by
  intro m m' w w' hm hsize
  obtain ⟨hsame, hstore⟩ := h _ _ hm.store hsize
  exact .done ⟨hstore, hm.context⟩ ⟨Nat.le_of_eq hsame.symm, rfl⟩

theorem note (f : Context → Context) :
    Pairs n k Agree (Eval.note f : Eval ω Unit) (Eval.note f : Eval ω' Unit) :=
  fun _ _ _ _ hm _ => .done ⟨hm.store, congrArg f hm.context⟩ ⟨Nat.le_refl _, rfl⟩

theorem enterCall (cfg : Config) (frame : Frame) :
    Pairs n k Agree (Eval.enterCall cfg frame : Eval ω Unit) (Eval.enterCall cfg frame : Eval ω' Unit) := by
  intro m m' w w' hm _
  unfold Eval.enterCall
  rw [hm.context]
  cases m.context.push cfg frame with
  | ok context => exact .done ⟨hm.store, rfl⟩ ⟨Nat.le_refl _, rfl⟩
  | error fault => exact .failed hm

/-! ### Calls and loops -/

theorem asCall (f : Function) (h : Pairs n k R e e') (hR : ∀ i j a b, i ≤ j → R i a b → R j a b) :
    Pairs n k R (Eval.asCall f e) (Eval.asCall f e') :=
  (report _ _).bind_same fun _ => h.ending hR (report _ _) (report _ _)

theorem inCall (cfg : Config) (f : Function) (frame : Frame) (h : Pairs n k R e e')
    (hR : ∀ i j a b, i ≤ j → R i a b → R j a b) :
    Pairs n k R (Eval.inCall cfg f frame e) (Eval.inCall cfg f frame e') :=
  bind_same (bind_same (report _ _) fun _ => enterCall cfg frame) fun _ =>
    h.ending hR (note _) (note _)

theorem inLoop (name : String) (h : Pairs n k R e e') (hR : ∀ i j a b, i ≤ j → R i a b → R j a b) :
    Pairs n k R (Eval.inLoop name e) (Eval.inLoop name e') :=
  (note _).bind_same fun _ => h.ending hR (note _) (note _)

theorem inRun (cfg : Config) (h : Pairs n k R e e') (hR : ∀ i j a b, i ≤ j → R i a b → R j a b) :
    Pairs n k R (Eval.inRun cfg e) (Eval.inRun cfg e') :=
  (note _).bind_same fun _ => h.ending hR (same ()) (note _)

/-! ### Scopes and names -/

section

variable {env env' : Env} {v v' : Value}

theorem newScope (he : env.Sees n k env') :
    Pairs n k (Env.Twin n) (Eval.create (·.newScope env) : Eval ω Env)
      (Eval.create (·.newScope env') : Eval ω' Env) := by
  refine .create fun s s' hs hsize => ?_
  rw [Store.size_newScope]
  exact ⟨Nat.le_succ _, hs.newScope env env', hs.env_newScope he hsize⟩

theorem declare (he : env.Twin n k env') (name : String) (hv : v.Twin n k v') (modifier : Modifier)
    (type : Option Ty) :
    Pairs n k Agree (Eval.declare env name v modifier type : Eval ω Unit)
      (Eval.declare env' name v' modifier type : Eval ω' Unit) := by
  have hbinding : Pairs n k (Binding.Twin n)
      (Eval.query fun store => store.declaration env name v modifier type : Eval ω Binding)
      (Eval.query fun store => store.declaration env' name v' modifier type : Eval ω' Binding) :=
    .query fun s s' hs hsize => hs.declaration he name (hv.mono hsize) modifier type
  refine hbinding.bind fun j _ b b' hb => .change fun s s' hs hsize => ?_
  rw [he.here]
  exact ⟨Store.size_modifyScope _ _, hs.bind env.here name (hb.mono hsize)⟩

theorem assign (he : env.Sees n k env') (name : String) (hv : v.Twin n k v') :
    Pairs n k Agree (Eval.assign env name v : Eval ω Unit) (Eval.assign env' name v' : Eval ω' Unit) := by
  have hbinding : Pairs n k (fun j x x' => x'.1 = moved n x.1 ∧ x.2.Twin n j x'.2)
      (Eval.query fun store => store.assignment env name v : Eval ω (Nat × Binding))
      (Eval.query fun store => store.assignment env' name v' : Eval ω' (Nat × Binding)) :=
    .query fun s s' hs hsize => hs.assignment he name (hv.mono hsize)
  refine hbinding.bind fun j _ x x' hx => .change fun s s' hs hsize => ?_
  obtain ⟨a, b⟩ := x
  obtain ⟨a', b'⟩ := x'
  obtain ⟨rfl, hb⟩ : a' = moved n a ∧ b.Twin n j b' := hx
  exact ⟨Store.size_modifyScope _ _, hs.bind a name (hb.mono hsize)⟩

theorem declareType (he : env.Twin n k env') (name : String) (type : Ty) :
    Pairs n k Agree (Eval.declareType env name type : Eval ω Unit)
      (Eval.declareType env' name type : Eval ω' Unit) :=
  bind_same (check fun _ _ hs => hs.checkTypeName_eq he name) fun _ =>
    change fun _ _ hs _ => ⟨Store.size_modifyScope _ _, hs.setType he.here name type⟩

theorem demand (he : env.Sees n k env') (type : Ty) (hv : v.Twin n k v') (fault : Ty → Fault) :
    Pairs n k Agree (Eval.demand env type v fault : Eval ω Unit)
      (Eval.demand env' type v' fault : Eval ω' Unit) :=
  .check fun s s' hs => by rw [hs.accepts_eq he type hv, hs.typeOf_eq hv]

theorem demand? (he : env.Sees n k env') (type : Option Ty) (hv : v.Twin n k v')
    (fault : Ty → Ty → Fault) :
    Pairs n k Agree (Eval.demand? env type v fault : Eval ω Unit)
      (Eval.demand? env' type v' fault : Eval ω' Unit) := by
  cases type with
  | none => exact .same ()
  | some type => exact .demand he type hv (fault type)

end

end Pairs

end Sable
