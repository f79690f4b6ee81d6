import Sable.Proofs.Runs.Chronicles
import Sable.Proofs.Types.Equality
import Sable.Proofs.Values.Writes

/-!
# Instances of structs

`Fate`: what a step can do to one object. An instance is made with the members that its struct declares
and keeps the name of the struct only. A write is checked against what the name stands for where the
write is made, which is the declaration of the instance if the write is `AtHome`. All members that have
to be there stay (`Obj.IsInstance`).
-/

namespace Sable

section

variable {κ α : Type} [BEq κ] {t : List (κ × α)} {k : κ} {a : α}

theorem Assoc.eq_or_mem_of_mem_set [LawfulBEq κ] {p : κ × α} (h : p ∈ Assoc.set k a t) :
    p = (k, a) ∨ p ∈ t := by
  induction t with
  | nil =>
    rw [Assoc.set, List.mem_singleton] at h
    exact .inl h
  | cons q t ih =>
    rw [Assoc.set] at h
    split at h
    · rename_i hk
      rcases List.mem_cons.1 h with rfl | h
      · exact .inl (by rw [eq_of_beq hk])
      · exact .inr (List.mem_cons_of_mem _ h)
    · rcases List.mem_cons.1 h with rfl | h
      · exact .inr List.mem_cons_self
      · exact (ih h).imp_right (List.mem_cons_of_mem _)

/-- No key is lost. -/
theorem Assoc.exists_mem_set {k' : κ} (h : ∃ b, (k', b) ∈ t) : ∃ b, (k', b) ∈ Assoc.set k a t := by
  obtain ⟨b, hb⟩ := h
  induction t with
  | nil => exact absurd hb List.not_mem_nil
  | cons q t ih =>
    obtain ⟨k₁, b₁⟩ := q
    rw [Assoc.set]
    split
    · rcases List.mem_cons.1 hb with hb | hb
      · cases hb
        exact ⟨a, List.mem_cons_self⟩
      · exact ⟨b, List.mem_cons_of_mem _ hb⟩
    · rcases List.mem_cons.1 hb with hb | hb
      · exact ⟨b, hb ▸ List.mem_cons_self⟩
      · obtain ⟨b', hb'⟩ := ih hb
        exact ⟨b', List.mem_cons_of_mem _ hb'⟩

end

/-! ### What a step does to an object -/

/-- The moment is one at which the object at the address is given the value of a property. -/
def Moment.Writes (x : Moment) (a : Nat) : Prop :=
  ∃ env field v, x.event = .wrote env a field v

/-- What can become of the object at an address in a step from `m` to the moment `x`. -/
inductive Fate (m : Machine) (x : Moment) (a : Nat) : Prop
  | same (h : x.machine.store.object a = m.store.object a) (hx : ¬ x.Writes a)
  | written {env : Env} {field : String} {v : Value} (hx : x.event = .wrote env a field v)
      (h : m.store.checkField env (m.store.object a) field v = .ok ())
      (hs : x.machine.store = m.store.setProperty a field v)
  | made {params : List Bound} {members : List Member} (ha : a = m.store.objects.size)
      (hx : x.event = .made (.object a) params members)
  | fresh (ha : a = m.store.objects.size) (hx : ¬ x.Writes a)
      (ht : (x.machine.store.object a).tag = none)

theorem Store.object_newObject_self (s : Store) (o : Obj) :
    (s.newObject o).2.object s.objects.size = o := by
  simp [object, newObject]

theorem Store.object_newObject_of_ne (s : Store) (o : Obj) {a : Nat} (h : a ≠ s.objects.size) :
    (s.newObject o).2.object a = s.object a := by
  simp [object, newObject, Array.getElem?_push, h]

theorem Store.size_newObject (s : Store) (o : Obj) :
    (s.newObject o).2.objects.size = s.objects.size + 1 := by
  simp [newObject]

theorem Store.size_setProperty (s : Store) (a : Nat) (field : String) (v : Value) :
    (s.setProperty a field v).objects.size = s.objects.size := by
  simp [setProperty]

section

variable {law : CodeLaw} {cfg : Config} {m : Machine} {x : Moment}

theorem Step.fate (h : Step law cfg m x) (a : Nat) : Fate m x a := by
  cases h with
  | store h =>
    have hx (m' : Machine) : ¬ Moment.Writes ⟨.changed, m'⟩ a := by
      rintro ⟨_, _, _, h⟩
      cases h
    cases h with
    -- the new object has the next address, and no struct has named it
    | @object o ht _ =>
      by_cases ha : a = m.store.objects.size
      · refine .fresh ha (hx _) ?_
        subst ha
        show ((m.store.newObject o).2.object m.store.objects.size).tag = none
        rw [Store.object_newObject_self]
        exact ht
      · exact .same (Store.object_newObject_of_ne _ _ ha) (hx _)
    | _ => exact .same rfl (hx _)
  | made h =>
    cases h with
    | made _ _ _ =>
      by_cases ha : a = m.store.objects.size
      · exact .made ha (by rw [ha])
      · refine .same (Store.object_newObject_of_ne _ _ ha) ?_
        rintro ⟨_, _, _, h⟩
        cases h
  | @wrote env b field v s h =>
    cases h with
    | property _ h =>
      by_cases hb : a = b
      · subst hb
        exact .written rfl h rfl
      · refine .same (Store.object_setProperty_of_ne field hb) ?_
        rintro ⟨_, _, _, h⟩
        cases h
        exact hb rfl
  | _ =>
    refine .same rfl ?_
    rintro ⟨_, _, _, h⟩
    cases h

/-- An instance is made with the members that its struct declares. -/
theorem Step.of_made {a : Nat} {params : List Bound} {members : List Member}
    (h : Step law cfg m x) (hx : x.event = .made (.object a) params members) :
    a < x.machine.store.objects.size ∧ (∃ tag, (x.machine.store.object a).tag = some tag) ∧
      HasMembers (x.machine.store.object a).properties members := by
  cases h with
  | made h =>
    cases hx
    cases h with
    | @made o tag _ _ ht _ hm _ =>
      show _ < (m.store.newObject o).2.objects.size ∧
        (∃ tag, ((m.store.newObject o).2.object _).tag = some tag) ∧
        HasMembers ((m.store.newObject o).2.object _).properties members
      rw [Store.object_newObject_self, Store.size_newObject]
      exact ⟨Nat.lt_succ_self _, ⟨tag, ht⟩, hm⟩
  | _ => cases hx

/-- No object is lost. -/
theorem Step.objects_size_le (h : Step law cfg m x) :
    m.store.objects.size ≤ x.machine.store.objects.size := by
  cases h with
  | store h =>
    cases h with
    | @object o _ _ =>
      show _ ≤ (m.store.newObject o).2.objects.size
      rw [Store.size_newObject]
      omega
    | _ => exact Nat.le_refl _
  | made h =>
    cases h with
    | @made o _ _ _ _ _ _ =>
      show _ ≤ (m.store.newObject o).2.objects.size
      rw [Store.size_newObject]
      omega
  | wrote h =>
    cases h with
    | property _ _ =>
      exact Nat.le_of_eq (Store.size_setProperty _ _ _ _).symm
  | _ => exact Nat.le_refl _

end

/-! ### What an instance keeps -/

/-- The object is an instance of a struct with this name, made with these type arguments, and has all
members that have to be there. -/
structure Obj.IsInstance (o : Obj) (tag : String) (args : List Ty) (members : List Member) : Prop where
  tag : o.tag = some tag
  typeArgs : o.typeArgs = args
  required : ∀ member ∈ members, member.optional = false → ∃ v, (member.name, v) ∈ o.properties

/-- A write names a member of the struct that the tag stands for, if it stands for one, and the value
has the type that is declared there. -/
theorem Store.of_checkField {s : Store} {env : Env} {o : Obj} {field tag : String} {v : Value}
    {params : List Bound} {members : List Member} (h : s.checkField env o field v = .ok ())
    (ht : o.tag = some tag) (hs : s.structMembers? env tag = some (params, members)) :
    ∃ member ∈ members, member.name = field ∧
      s.accepts env (member.type.subst (.ofArgs params o.typeArgs)) v = true := by
  simp only [checkField, ht, hs] at h
  cases hfind : Member.find? members field with
  | none =>
    rw [hfind] at h
    cases h
  | some member =>
    rw [hfind] at h
    refine ⟨member, List.mem_of_find?_eq_some hfind, ?_, ?_⟩
    · unfold Member.find? at hfind
      simpa using List.find?_some hfind
    · by_cases haccepts : s.accepts env (member.type.subst (.ofArgs params o.typeArgs)) v = true
      · exact haccepts
      · simp [haccepts] at h

/-- The write is one to another object, or it is made where the name of the struct stands for the
declaration with these parameters and members. -/
def Moment.AtHome (x : Moment) (a : Nat) (tag : String) (params : List Bound)
    (members : List Member) : Prop :=
  ∀ env field v, x.event = .wrote env a field v →
    x.machine.store.structMembers? env tag = some (params, members)

section

variable {law : CodeLaw} {cfg : Config} {m : Machine} {x : Moment} {a : Nat} {tag : String}
  {args : List Ty} {params : List Bound} {members : List Member}

/-- Whatever step is taken, an instance stays one. -/
theorem Step.isInstance (h : Step law cfg m x) (ha : a < m.store.objects.size)
    (hi : (m.store.object a).IsInstance tag args members) :
    (x.machine.store.object a).IsInstance tag args members := by
  cases h.fate a with
  | same h _ =>
    rw [h]
    exact hi
  | written _ _ hs =>
    rw [hs, Store.object_setProperty_self _ ha]
    exact ⟨hi.tag, hi.typeArgs, fun member hm hr => Assoc.exists_mem_set (hi.required member hm hr)⟩
  | made hsize _ => omega
  | fresh hsize _ _ => omega

/-- The scopes are the same before and after a write. -/
theorem Store.structMembers?_setProperty (s : Store) (b : Nat) (field : String) (v : Value)
    (env : Env) (tag : String) :
    (s.setProperty b field v).structMembers? env tag = s.structMembers? env tag :=
  rfl

/-- A write at home is held to the declaration. -/
theorem Step.write_checked (h : Step law cfg m x)
    (hi : (m.store.object a).IsInstance tag args members) (hhome : x.AtHome a tag params members)
    {env : Env} {field : String} {v : Value} (hx : x.event = .wrote env a field v) :
    ∃ member ∈ members, member.name = field ∧
      m.store.accepts env (member.type.subst (.ofArgs params args)) v = true := by
  cases h.fate a with
  | same _ hno => exact absurd ⟨env, field, v, hx⟩ hno
  | written hx' hcheck hs =>
    rw [hx] at hx'
    cases hx'
    have hmembers := hhome env field v hx
    rw [hs, Store.structMembers?_setProperty] at hmembers
    have hmember := Store.of_checkField hcheck hi.tag hmembers
    rwa [hi.typeArgs] at hmember
  | made _ hx' =>
    rw [hx] at hx'
    cases hx'
  | fresh _ hno _ => exact absurd ⟨env, field, v, hx⟩ hno

/-- After a write at home all properties are still members. -/
theorem Step.hasMembers (h : Step law cfg m x) (ha : a < m.store.objects.size)
    (hi : (m.store.object a).IsInstance tag args members) (hhome : x.AtHome a tag params members)
    (hm : HasMembers (m.store.object a).properties members) :
    HasMembers (x.machine.store.object a).properties members := by
  refine ⟨fun p hp => ?_, (h.isInstance ha hi).required⟩
  cases h.fate a with
  | same h _ =>
    rw [h] at hp
    exact hm.declared p hp
  | written hx _ hs =>
    obtain ⟨member, hmember, hname, -⟩ := h.write_checked hi hhome hx
    rw [hs, Store.object_setProperty_self _ ha] at hp
    rcases Assoc.eq_or_mem_of_mem_set hp with rfl | hp
    · exact ⟨member, hmember, hname⟩
    · exact hm.declared p hp
  | made hsize _ => omega
  | fresh hsize _ _ => omega

end

/-! ### Runs one after another -/

/-- The machine at the last of the moments, or `m` if there are none. -/
def endOf (m : Machine) (h : List Moment) : Machine :=
  h.foldl (fun _ x => x.machine) m

theorem endOf_append (m : Machine) (h h' : List Moment) :
    endOf m (h ++ h') = endOf (endOf m h) h' :=
  List.foldl_append

theorem endOf_concat (m : Machine) (h : List Moment) (x : Moment) : endOf m (h ++ [x]) = x.machine :=
  endOf_append m h [x]

/-- Every moment comes by a step from the one before, under some settings. -/
def Stepwise : Machine → List Moment → Prop
  | _, [] => True
  | m, x :: h => (∃ cfg, Step .any cfg m x) ∧ Stepwise x.machine h

theorem stepwise_append {m : Machine} {h h' : List Moment} :
    Stepwise m (h ++ h') ↔ Stepwise m h ∧ Stepwise (endOf m h) h' := by
  induction h generalizing m with
  | nil => exact (iff_of_eq (true_and _)).symm
  | cons x h ih =>
    show (_ ∧ Stepwise x.machine (h ++ h')) ↔ (_ ∧ Stepwise x.machine h) ∧ _
    rw [ih, and_assoc]
    rfl

theorem Trace.stepwise {cfg : Config} {m m' : Machine} {h : List Moment} (ht : Trace .any cfg m h m') :
    Stepwise m h ∧ endOf m h = m' := by
  induction ht with
  | nil => exact ⟨trivial, rfl⟩
  | cons hx _ ih => exact ⟨⟨⟨_, hx⟩, ih.1⟩, ih.2⟩

namespace Stepwise

variable {m : Machine} {h : List Moment} {a : Nat} {tag : String} {args : List Ty}
  {params : List Bound} {members : List Member}

theorem isInstance (hf : Stepwise m h) (ha : a < m.store.objects.size)
    (hi : (m.store.object a).IsInstance tag args members) :
    a < (endOf m h).store.objects.size ∧
      ((endOf m h).store.object a).IsInstance tag args members := by
  induction h generalizing m with
  | nil => exact ⟨ha, hi⟩
  | cons x h ih =>
    obtain ⟨⟨cfg, hstep⟩, hrest⟩ := hf
    have hsize : a < x.machine.store.objects.size := Nat.lt_of_lt_of_le ha hstep.objects_size_le
    exact ih hrest hsize (hstep.isInstance ha hi)

theorem hasMembers (hf : Stepwise m h) (ha : a < m.store.objects.size)
    (hi : (m.store.object a).IsInstance tag args members)
    (hhome : ∀ x ∈ h, x.AtHome a tag params members)
    (hm : HasMembers (m.store.object a).properties members) :
    HasMembers ((endOf m h).store.object a).properties members := by
  induction h generalizing m with
  | nil => exact hm
  | cons x h ih =>
    obtain ⟨⟨cfg, hstep⟩, hrest⟩ := hf
    have hsize : a < x.machine.store.objects.size := Nat.lt_of_lt_of_le ha hstep.objects_size_le
    have hx : x.AtHome a tag params members := hhome x List.mem_cons_self
    exact ih hrest hsize (hstep.isInstance ha hi)
      (fun y hy => hhome y (List.mem_cons_of_mem _ hy)) (hstep.hasMembers ha hi hx hm)

/-- An instance is one of those that were there, or it has been made. -/
theorem made_of_tag (hf : Stepwise m h) (ht : ((endOf m h).store.object a).tag = some tag) :
    (m.store.object a).tag = some tag ∨
      ∃ x ∈ h, ∃ params members, x.event = .made (.object a) params members := by
  induction h generalizing m with
  | nil => exact .inl ht
  | cons x h ih =>
    obtain ⟨⟨cfg, hstep⟩, hrest⟩ := hf
    rcases ih hrest ht with hx | ⟨y, hy, hmade⟩
    · cases hstep.fate a with
      | same h _ => exact .inl (h ▸ hx)
      | written _ _ hs =>
        rw [hs] at hx
        by_cases ha : a < m.store.objects.size
        · rw [Store.object_setProperty_self _ ha] at hx
          exact .inl hx
        · rw [Store.object_setProperty_of_le _ (Nat.not_lt.1 ha)] at hx
          exact .inl hx
      | made _ hevent => exact .inr ⟨x, List.mem_cons_self, _, _, hevent⟩
      | fresh _ _ hnone =>
        rw [hnone] at hx
        cases hx
    · exact .inr ⟨y, List.mem_cons_of_mem _ hy, hmade⟩

end Stepwise

namespace Session

/-- What a session goes through in runs one after another. A run without an answer is the last. -/
def moments : Session → List Job → List Moment
  | _, [] => []
  | s, job :: jobs =>
    s.history job.cfg job.fuel job.program ++
      match s.run job.cfg job.fuel job.program with
      | some (_, s') => moments s' jobs
      | none => []

theorem moments_stepwise (s : Session) (jobs : List Job) : Stepwise s.machine (s.moments jobs) := by
  induction jobs generalizing s with
  | nil => trivial
  | cons job jobs ih =>
    have hany : ∀ t ∈ job.program.body, CodeLaw.any.stmt t := fun _ _ => trivial
    obtain ⟨-, ⟨m', ht⟩, hafter⟩ := watch_lawful job.cfg job.fuel (CodeLaw.any_store s.store) hany
    refine stepwise_append.2 ⟨ht.stepwise.1, ?_⟩
    split
    · rename_i s' hrun
      obtain ⟨ht', -⟩ := hafter _ s' hrun
      rw [ht'.stepwise.2]
      exact ih s'
    · trivial

/-- The objects with a tag at the moment `x` are those that the store had and those that were made in the
moments `before` or at `x` itself. -/
def TagsMade (s : Store) (before : List Moment) (x : Moment) : Prop :=
  ∀ a tag, (x.machine.store.object a).tag = some tag → (s.object a).tag = some tag ∨
    ∃ y ∈ before ++ [x], ∃ params members, y.event = .made (.object a) params members

/-- What is so at the moment `y` of an instance that is there at `m`, with the moments `mid` between: it
has its name, its type arguments and all members that have to be there. A write to it that is made where
the name of the struct stands for the same declaration names a member of that, and the value has the type
declared for it. If all writes since `m` are such, its properties are among the members. -/
structure KeepsInstance (m : Machine) (mid : List Moment) (y : Moment) (a : Nat) (tag : String)
    (args : List Ty) (params : List Bound) (members : List Member) : Prop where
  stays : (y.machine.store.object a).IsInstance tag args members
  checked : y.AtHome a tag params members → ∀ env field v, y.event = .wrote env a field v →
    ∃ member ∈ members, member.name = field ∧
      (endOf m mid).store.accepts env (member.type.subst (.ofArgs params args)) v = true
  closed : (∀ z ∈ mid ++ [y], z.AtHome a tag params members) →
    HasMembers (y.machine.store.object a).properties members

/-- Whatever programs are run in a session, one after another: instances are made with exactly the members
that their struct declares, but for optional ones, and are kept from then on. -/
theorem instances_wellFormed (s : Session) (jobs : List Job) :
    ∀ before x after, s.moments jobs = before ++ x :: after →
      TagsMade s.store before x ∧
      ∀ a params members, x.event = .made (.object a) params members →
        HasMembers (x.machine.store.object a).properties members ∧
        ∃ tag args, (x.machine.store.object a).IsInstance tag args members ∧
          ∀ mid y rest, after = mid ++ y :: rest →
            KeepsInstance x.machine mid y a tag args params members := by
  intro before x after heq
  have hstepwise := s.moments_stepwise jobs
  refine ⟨fun a tag ht => ?_, fun a params members hmade => ?_⟩
  · have hsplit : before ++ x :: after = (before ++ [x]) ++ after := by simp
    rw [heq, hsplit] at hstepwise
    have hend := endOf_concat s.machine before x
    exact (stepwise_append.1 hstepwise).1.made_of_tag (hend ▸ ht)
  · rw [heq] at hstepwise
    obtain ⟨⟨cfg, hstep⟩, hrest⟩ := (stepwise_append.1 hstepwise).2
    obtain ⟨ha, ⟨tag, htag⟩, hm⟩ := hstep.of_made hmade
    have hi : (x.machine.store.object a).IsInstance tag (x.machine.store.object a).typeArgs members :=
      ⟨htag, rfl, hm.required⟩
    refine ⟨hm, tag, _, hi, fun mid y rest hafter => ?_⟩
    -- from the instance to the moment before `y`, and on to `y` itself
    rw [hafter] at hrest
    obtain ⟨hmid, ⟨cfg', hy⟩, -⟩ := stepwise_append.1 hrest
    have hall : Stepwise x.machine (mid ++ [y]) := stepwise_append.2 ⟨hmid, ⟨cfg', hy⟩, trivial⟩
    have hend := endOf_concat x.machine mid y
    refine ⟨?_, fun hhome env field v hwrote => ?_, fun hhome => ?_⟩
    · have hlater := (hall.isInstance ha hi).2
      rwa [hend] at hlater
    · exact hy.write_checked (hmid.isInstance ha hi).2 hhome hwrote
    · have hlater := hall.hasMembers ha hi hhome hm
      rwa [hend] at hlater

end Session

/-! ### At home and elsewhere -/

/-- A test for writes that are made at home. -/
def Moment.atHome (x : Moment) (a : Nat) (tag : String) (params : List Bound)
    (members : List Member) : Bool :=
  match x.event with
  | .wrote env b _ _ =>
    b != a || match x.machine.store.structMembers? env tag with
      | some (ps, ms) => Ty.beqBounds ps params && Ty.beqMembers ms members
      | none => false
  | _ => true

theorem Moment.atHome_of_test {x : Moment} {a : Nat} {tag : String} {params : List Bound}
    {members : List Member} (h : x.atHome a tag params members = true) :
    x.AtHome a tag params members := by
  intro env field v hx
  simp only [atHome, hx, bne_self_eq_false, Bool.false_or] at h
  split at h
  · rename_i ps ms hs
    rw [Bool.and_eq_true] at h
    rw [hs, Ty.eq_of_beqBounds h.1, Ty.eq_of_beqMembers h.2]
  · cases h

/-- The instance that is made, with what its struct declares. -/
def Event.made? : Event → Option (Nat × List Bound × List Member)
  | .made (.object a) params members => some (a, params, members)
  | _ => none

/-- The object that is written to, and the name of the property. -/
def Event.wrote? : Event → Option (Nat × String)
  | .wrote _ a field _ => some (a, field)
  | _ => none

theorem Event.of_made? {e : Event} {a : Nat} {params : List Bound} {members : List Member}
    (h : e.made? = some (a, params, members)) : e = .made (.object a) params members := by
  unfold made? at h
  split at h <;> cases h
  rfl

theorem Event.of_wrote? {e : Event} {a : Nat} {field : String} (h : e.wrote? = some (a, field)) :
    ∃ env v, e = .wrote env a field v := by
  unfold wrote? at h
  split at h <;> cases h
  exact ⟨_, _, rfl⟩

/-- The first instance that is made is one of the struct, and it is written to at the last moment. -/
def makesThenWrites (tag field : String) (moments : List Moment) : Bool :=
  match moments.dropWhile (·.event.made?.isNone) with
  | [] => false
  | x :: after => x.event.made?.any fun (a, params, members) =>
      (x.machine.store.object a).tag == some tag && after.all (·.atHome a tag params members) &&
        after.getLast?.any (·.event.wrote? == some (a, field))

theorem of_makesThenWrites {tag field : String} {moments : List Moment}
    (h : makesThenWrites tag field moments = true) :
    ∃ before x mid y a params members env v, moments = before ++ x :: (mid ++ [y]) ∧
      x.event = .made (.object a) params members ∧ y.event = .wrote env a field v ∧
      (x.machine.store.object a).tag = some tag ∧
      ∀ z ∈ mid ++ [y], z.AtHome a tag params members := by
  unfold makesThenWrites at h
  split at h
  · cases h
  · rename_i x after hdrop
    obtain ⟨⟨a, params, members⟩, hmade, h⟩ := (Option.any_eq_true _ _).1 h
    simp only [Bool.and_eq_true, beq_iff_eq, List.all_eq_true] at h
    obtain ⟨⟨htag, hhome⟩, hlast⟩ := h
    obtain ⟨y, hy, hwrote⟩ := (Option.any_eq_true _ _).1 hlast
    obtain ⟨mid, rfl⟩ := List.getLast?_eq_some_iff.1 hy
    obtain ⟨env, v, hwrote⟩ := Event.of_wrote? (eq_of_beq hwrote)
    have hsplit : moments = moments.takeWhile (·.event.made?.isNone) ++ x :: (mid ++ [y]) := by
      rw [← hdrop, List.takeWhile_append_dropWhile]
    exact ⟨_, x, mid, y, a, params, members, env, v, hsplit, Event.of_made? hmade, hwrote, htag,
      fun z hz => Moment.atHome_of_test (hhome z hz)⟩

/-- An instance is made and given an optional member, in the scope of its struct. -/
def laterMember : String :=
  "type P \x7b x: dynamic, note?: dynamic \x7d\nvar p = P \x7b x: \"a\" \x7d\np.note = \"b\""

theorem laterMember_wellFormed :
    ∃ p, Program.parse "main" laterMember = .ok p ∧
      let moments := Session.start.moments [⟨p, { file := "main" }, 20⟩]
      ∃ x ∈ moments, ∃ y ∈ moments, ∃ a params members env v,
        x.event = .made (.object a) params members ∧ y.event = .wrote env a "note" v ∧
        (∃ member ∈ members, member.name = "note") ∧
        HasMembers (y.machine.store.object a).properties members := by
  have hrun : (Program.parse "main" laterMember).toOption.any (fun p =>
      makesThenWrites "P" "note" (Session.start.moments [⟨p, { file := "main" }, 20⟩])) = true := by
    decide +kernel
  obtain ⟨p, hp, hrun⟩ := exists_of_toOption_any hrun
  obtain ⟨before, x, mid, y, a, params, members, env, v, hsplit, hmade, hwrote, htag, hhome⟩ :=
    of_makesThenWrites hrun
  obtain ⟨-, hinstances⟩ :=
    Session.instances_wellFormed Session.start [⟨p, { file := "main" }, 20⟩] _ x _ hsplit
  obtain ⟨-, tag, args, hi, hlater⟩ := hinstances _ params members hmade
  obtain rfl : tag = "P" := Option.some.inj (hi.tag.symm.trans htag)
  obtain ⟨-, hchecked, hmembers⟩ := hlater mid y [] rfl
  have hy : y ∈ mid ++ [y] := List.mem_append_right _ (List.mem_singleton_self _)
  obtain ⟨member, hmember, hname, -⟩ := hchecked (hhome y hy) _ _ _ hwrote
  refine ⟨p, hp, x, ?_, y, ?_, a, params, members, env, v, hmade, hwrote,
    ⟨member, hmember, hname⟩, hmembers hhome⟩
  · rw [hsplit]
    exact List.mem_append_right _ List.mem_cons_self
  · rw [hsplit]
    exact List.mem_append_right _ (List.mem_cons_of_mem _ hy)

/-- An instance is given a property where the name of its struct stands for nothing. -/
def strayWrite : String :=
  "fn mk() \x7b\n type P \x7b x: dynamic \x7d\n return P \x7b x: \"a\" \x7d\n\x7d\nvar p = mk()\np.y = \"b\""

/-- A write elsewhere gives an instance a property that its struct does not declare. -/
theorem strayWrite_undeclared :
    ∃ p, Program.parse "main" strayWrite = .ok p ∧
      let moments := Session.start.moments [⟨p, { file := "main" }, 20⟩]
      ∃ x ∈ moments, ∃ y ∈ moments, ∃ a params members env v,
        x.event = .made (.object a) params members ∧ y.event = .wrote env a "y" v ∧
        (∀ member ∈ members, member.name ≠ "y") ∧
        ∃ q ∈ (y.machine.store.object a).properties, q.1 = "y" := by
  have hrun : (Program.parse "main" strayWrite).toOption.any (fun p =>
      let moments := Session.start.moments [⟨p, { file := "main" }, 20⟩]
      moments.any fun x => x.event.made?.any fun r => moments.any fun y =>
        y.event.wrote? == some (r.1, "y") && r.2.2.all (·.name != "y") &&
          (y.machine.store.object r.1).properties.any (·.1 == "y")) = true := by decide +kernel
  obtain ⟨p, hp, hrun⟩ := exists_of_toOption_any hrun
  obtain ⟨x, hx, hrun⟩ := List.any_eq_true.1 hrun
  obtain ⟨⟨a, params, members⟩, hmade, hrun⟩ := (Option.any_eq_true _ _).1 hrun
  obtain ⟨y, hy, hrun⟩ := List.any_eq_true.1 hrun
  simp only [Bool.and_eq_true, beq_iff_eq, List.all_eq_true, bne_iff_ne, List.any_eq_true] at hrun
  obtain ⟨⟨hwrote, hnone⟩, hproperty⟩ := hrun
  obtain ⟨env, v, hwrote⟩ := Event.of_wrote? hwrote
  exact ⟨p, hp, x, hx, y, hy, a, params, members, env, v, Event.of_made? hmade, hwrote, hnone,
    hproperty⟩

end Sable
