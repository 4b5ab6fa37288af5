import ScriptMachine.Proofs.Machine.Cover.Invocation

/-!
Classes and properties. A member that is stored was known, and a member that is read comes out of a
table of a known object.
-/

namespace ScriptMachine.Machine.World

variable {w : World} {host : Host}

/-! Classes. -/

theorem grows_makeClass (name : Value) : w.Grows (makeClass name) := by
  have hcls (n : String) : w.Knows (Object.cls { name := n }) := by simp
  exact grows_pushNew fun m hm => hm.alloc (hcls _) nofun

theorem keeps_modifyClass (v : Value) {g : Pool → Class → Class}
    (hg : ∀ pool c, w.Knows (Object.cls c) → w.Knows (Object.cls (g pool c))) :
    w.Keeps (modifyClass v g) := by
  apply does_get
  intro m hm
  split
  · rename_i r
    split
    · apply keeps_set
      apply hm.update
      · intro o ho
        have hknows := hm.heap.objects r o ho
        cases o with
        | cls c => exact hg _ c hknows
        | _ => exact hknows
      · intro o _
        cases o with
        | cls c => exact Or.inr ⟨rfl, rfl, rfl, rfl⟩
        | _ => exact Or.inl rfl
    · exact does_breach _
  · exact does_breach _

theorem keeps_makeMethod {name : Value} (hname : w.Knows name) : w.Keeps (makeMethod name) := by
  refine keeps_pop.then fun method hmethod => ?_
  apply does_get
  intro m _
  refine (keeps_peek 0).then fun cls _ => keeps_modifyClass cls fun pool c hc => ?_
  rw [knows_cls] at hc
  obtain ⟨hsuper, hmethods, hstaticMethods, hdefaults, hstatics, hconstructor⟩ := hc
  split
  · exact knows_cls.2 ⟨hsuper, hmethods, hstaticMethods, hdefaults, hstatics, hmethod⟩
  · exact knows_cls.2
      ⟨hsuper, hmethods, hstaticMethods.set pool hname hmethod, hdefaults, hstatics, hconstructor⟩
  · exact knows_cls.2
      ⟨hsuper, hmethods.set pool hname hmethod, hstaticMethods, hdefaults, hstatics, hconstructor⟩

theorem keeps_defineProperty {name : Value} (hname : w.Knows name) (isStatic : Bool) :
    w.Keeps (defineProperty name isStatic) := by
  refine keeps_pop.then fun value hvalue => ?_
  refine (keeps_peek 0).then fun cls _ => keeps_modifyClass cls fun pool c hc => ?_
  rw [knows_cls] at hc
  obtain ⟨hsuper, hmethods, hstaticMethods, hdefaults, hstatics, hconstructor⟩ := hc
  split
  · exact knows_cls.2
      ⟨hsuper, hmethods, hstaticMethods, hdefaults, hstatics.set pool hname hvalue, hconstructor⟩
  · exact knows_cls.2
      ⟨hsuper, hmethods, hstaticMethods, hdefaults.set pool hname hvalue, hstatics, hconstructor⟩

theorem knows_inheriting {c parent : Class} {superclass : Value} (pool : Pool)
    (hc : w.Knows (Object.cls c)) (hsuperclass : w.Knows superclass)
    (hparent : w.Knows (Object.cls parent)) :
    w.Knows (Object.cls (c.inheriting pool superclass parent)) := by
  rw [knows_cls] at hc hparent ⊢
  obtain ⟨-, hmethods, hstaticMethods, hdefaults, hstatics, hconstructor⟩ := hc
  obtain ⟨-, hmethods', -, hdefaults', -, hconstructor'⟩ := hparent
  refine ⟨?_, hmethods.addAll pool hmethods', hstaticMethods, hdefaults.addAll pool hdefaults',
    hstatics, ?_⟩
  · cases superclass with
    | ref r => exact knows_reference.2 (knows_ref.1 hsuperclass)
    | _ => exact knows_none
  · show w.Knows (c.constructor? <|> parent.constructor?)
    cases hown : c.constructor? with
    | some v =>
      rw [hown] at hconstructor
      exact hconstructor
    | none => exact hconstructor'

theorem grows_inherit : w.Grows inherit := by
  refine (keeps_peek 1).then fun superclass hsuperclass => ?_
  apply does_get
  intro m hm
  split
  · rename_i parent hparent
    refine keeps_pop.then fun subclass _ => Keeps.lift (keeps_modifyClass subclass ?_)
    intro pool c hc
    exact knows_inheriting pool hc hsuperclass (hm.classOf? hparent)
  · exact does_misuse _

/-! Properties. -/

theorem grows_bindTop {receiver method : Value} (hreceiver : w.Knows receiver)
    (hmethod : w.Knows method) : w.Grows (bindTop receiver method) := by
  have hbound : w.Knows (Object.bound { receiver, method }) := knows_bound.2 ⟨hreceiver, hmethod⟩
  exact (grows_modifyGet fun m hm => hm.alloc hbound nofun).then fun u v _ hv => (keeps_setTop hv).lift

theorem grows_getSuper (name : Value) : w.Grows (getSuper name) := by
  refine keeps_popClass.then fun superclass _ => (keeps_peek 0).then fun receiver hreceiver => ?_
  refine (keeps_findMethod _ _).then fun e? he => ?_
  split
  · exact grows_bindTop hreceiver (knows_entry.1 (knows_some.1 he)).2
  · exact does_get fun _ _ => does_misuse _

theorem runs_showField (horderly : host.Orderly) {receiver : Value} (hreceiver : w.Knows receiver)
    {e : Entry} (he : w.Knows e) : w.Runs host (showField host receiver e) := by
  have hvalue := (knows_entry.1 he).2
  unfold showField
  split
  · exact (keeps_setTop hvalue).lift
  · refine (keeps_calleeSlot 0).then fun base _ => (keeps_setSlot base hreceiver).then fun _ _ => ?_
    exact runs_callValue horderly hvalue 0

theorem runs_showMethod (horderly : host.Orderly) {receiver : Value} (hreceiver : w.Knows receiver)
    {e : Entry} (he : w.Knows e) : w.Runs host (showMethod host receiver e) := by
  unfold showMethod
  split
  · exact (grows_bindTop hreceiver (knows_entry.1 he).2).lift
  · exact runs_showField horderly hreceiver he

theorem runs_getOnInstance (horderly : host.Orderly) {receiver : Value}
    (hreceiver : w.Knows receiver) (cls : Ref) (name : Value) (fromSelf : Bool) :
    w.Runs host (getOnInstance host receiver cls name fromSelf) := by
  apply does_get
  intro m hm
  split
  · exact does_misuse _
  · split
    · rename_i e he
      exact runs_showField horderly hreceiver (hm.fieldEntry? he)
    · refine (keeps_findMethod _ _).then fun e? he => ?_
      split
      · exact runs_showMethod horderly hreceiver (knows_some.1 he)
      · exact does_misuse _

theorem runs_getOnClass (horderly : host.Orderly) {receiver : Value} (hreceiver : w.Knows receiver)
    {c : Class} (hc : w.Knows (Object.cls c)) (name : Value) (fromSelf : Bool) :
    w.Runs host (getOnClass host receiver c name fromSelf) := by
  apply does_get
  intro m hm
  split
  · rename_i e he
    split
    · exact does_misuse _
    · exact runs_showField horderly hreceiver (knows_static hc he)
  · exact does_misuse _

theorem runs_getOnPrimitive (horderly : host.Orderly) {receiver : Value}
    (hreceiver : w.Knows receiver) (name : Value) :
    w.Runs host (getOnPrimitive host receiver name) := by
  apply does_get
  intro m hm
  split
  · refine (keeps_primitiveMethod _ _).then fun e? he => ?_
    split
    · exact runs_showMethod horderly hreceiver (knows_some.1 he)
    · exact does_misuse _
  · exact does_misuse _

theorem runs_getProperty (horderly : host.Orderly) (name : Value) (fromSelf : Bool) :
    w.Runs host (getProperty host name fromSelf) := by
  refine (keeps_peek 0).then fun receiver hreceiver => ?_
  apply does_get
  intro m hm
  split
  · exact runs_getOnInstance horderly hreceiver _ name fromSelf
  · split
    · rename_i c hc
      exact runs_getOnClass horderly hreceiver (hm.classOf? hc) name fromSelf
    · split
      · rename_i e he
        exact runs_showField horderly hreceiver (hm.dictEntry? he)
      · exact runs_getOnPrimitive horderly hreceiver name

theorem knows_dictInsert {d : Dict} (hd : w.Knows (Object.dict d)) (pool : Pool) {key value : Value}
    (hkey : w.Knows key) (hvalue : w.Knows value) :
    w.Knows (Object.dict (d.insert pool key value)) := by
  rw [knows_dict] at hd ⊢
  have htable := hd.2.insert pool hkey hvalue .value
  unfold Dict.insert
  split
  · rename_i table heq
    rw [heq] at htable
    refine ⟨?_, htable⟩
    intro v hv
    rcases Array.mem_push.1 hv with hold | rfl
    · exact hd.1 v hold
    · exact hkey
  · rename_i table heq
    rw [heq] at htable
    exact ⟨hd.1, htable⟩

theorem grows_insertIntoDict (r : Ref) {key value : Value} (hkey : w.Knows key)
    (hvalue : w.Knows value) : w.Grows (insertIntoDict r key value) := by
  unfold insertIntoDict
  split
  · apply does_get
    intro m hm
    split
    · refine (keeps_set (hm.update ?_ ?_)).lift
      · intro o ho
        have hknows := hm.heap.objects r o ho
        cases o with
        | dict d => exact knows_dictInsert hknows _ hkey hvalue
        | _ => exact hknows
      · intro o _
        cases o with
        | dict d => exact Or.inr ⟨rfl, rfl, rfl, rfl⟩
        | _ => exact Or.inl rfl
    · exact does_breach _
  · exact does_misuse _

theorem keeps_setOnClass (cls : Value) {name value : Value} (hname : w.Knows name)
    (hvalue : w.Knows value) : w.Keeps (setOnClass cls name value) := by
  apply does_get
  intro m _
  refine keeps_modifyClass cls fun pool c hc => ?_
  rw [knows_cls] at hc
  obtain ⟨hsuper, hmethods, hstaticMethods, hdefaults, hstatics, hconstructor⟩ := hc
  split
  · exact knows_cls.2
      ⟨hsuper, hmethods.set pool hname hvalue, hstaticMethods, hdefaults, hstatics, hconstructor⟩
  · exact knows_cls.2
      ⟨hsuper, hmethods, hstaticMethods, hdefaults, hstatics.set pool hname hvalue, hconstructor⟩

theorem grows_setProperty {name : Value} (hname : w.Knows name) : w.Grows (setProperty name) := by
  refine keeps_pop.then fun value hvalue => keeps_pop.then fun target _ => ?_
  apply does_get
  intro m hm
  split
  · dsimp only
    have hpush {u : World} (hle : w ≤ u) : u.Grows (push value) := (keeps_push (hvalue.mono hle)).lift
    split
    · exact (keeps_set (hm.setField _ hname hvalue)).then fun _ _ => hpush (le_refl w)
    · exact (grows_insertIntoDict _ hname hvalue).then fun u _ hle _ => hpush hle
    · exact (keeps_setOnClass _ hname hvalue).then fun _ _ => hpush (le_refl w)
    · split
      · exact (keeps_setOnClass _ hname hvalue).then fun _ _ => hpush (le_refl w)
      · exact Grows.then (does_misuse (α := Unit) _) fun u _ hle _ => hpush hle
  · exact does_misuse _

theorem grows_testInstance : w.Grows testInstance := by
  refine keeps_pop.then fun cls _ => keeps_pop.then fun value _ => ?_
  apply does_get
  intro m hm
  split
  · split
    · refine (keeps_settle fun _ _ => knows_plain rfl).then fun _ _ => ?_
      exact (keeps_push knows_bool).lift
    · exact does_misuse _
  · exact does_misuse _

end ScriptMachine.Machine.World
