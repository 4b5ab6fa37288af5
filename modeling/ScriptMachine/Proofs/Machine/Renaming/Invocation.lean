import ScriptMachine.Proofs.Machine.Cover.Invocation
import ScriptMachine.Proofs.Machine.Renaming.Call

/-!
Methods of values that are alike. The same name leads to entries that are alike, on paired objects,
along paired classes or in the class of the same primitive, so calls of methods go the same way.
-/

namespace ScriptMachine

open Machine

namespace Renaming

variable {α : Type} [Renamed α] {R : Renaming → Renaming → Prop} {ρ : Renaming} {m n : Machine}
  {v w name name' receiver receiver' : Value} {e e' : Entry} {r s : Ref} {host : Host}

/-! What a name leads to. -/

theorem Mirrors.fieldEntry? (hm : ρ.Mirrors m n) (hvw : ρ.Alike v w) (hname : ρ.Alike name name') :
    ρ.Alike (m.fieldEntry? v name) (n.fieldEntry? w name') := by
  have hobject := hm.heap.object? hvw
  unfold Machine.fieldEntry?
  generalize m.heap.object? v = o? at hobject
  generalize n.heap.object? w = o'? at hobject
  cases hobject with
  | none => exact .none
  | some ho =>
    cases ho with
    | inst _ hfields => exact hfields.entry? hm.heap.leftPool hm.heap.rightPool hname
    | _ => exact .none

theorem Mirrors.dictEntry? (hm : ρ.Mirrors m n) (hvw : ρ.Alike v w) (hname : ρ.Alike name name') :
    ρ.Alike (m.dictEntry? v name) (n.dictEntry? w name') := by
  have hobject := hm.heap.object? hvw
  unfold Machine.dictEntry?
  generalize m.heap.object? v = o? at hobject
  generalize n.heap.object? w = o'? at hobject
  cases hobject with
  | none => exact .none
  | some ho =>
    cases ho with
    | dict _ htable => exact htable.entry? hm.heap.leftPool hm.heap.rightPool hname
    | _ => exact .none

theorem Mirrors.classOf? (hm : ρ.Mirrors m n) (hvw : ρ.Alike v w) :
    ρ.Alike (m.classOf? v) (n.classOf? w) := by
  have hobject := hm.heap.object? hvw
  unfold Machine.classOf?
  generalize m.heap.object? v = o? at hobject
  generalize n.heap.object? w = o'? at hobject
  cases hobject with
  | none => exact .none
  | some ho =>
    cases ho with
    | cls h => exact .some h
    | _ => exact .none

theorem Holds.static? {h k : Heap} (hh : ρ.Holds h k) {c d : Class} (hcd : ρ.Alike c d)
    (hname : ρ.Alike name name') :
    ρ.Alike (c.static? h.pool name) (d.static? k.pool name') := by
  have hmethod := hcd.staticMethods.entry? hh.leftPool hh.rightPool hname
  have hproperty := hcd.statics.entry? hh.leftPool hh.rightPool hname
  unfold Class.static?
  generalize c.staticMethods.entry? h.pool name = e? at hmethod
  generalize d.staticMethods.entry? k.pool name' = e'? at hmethod
  cases hmethod with
  | none => exact hproperty
  | some he => exact .some he

theorem keeps_findMethod (hrs : ρ.pairs r s) (hname : ρ.Alike name name') :
    ρ.Keeps (findMethod r name) (findMethod s name') :=
  does_get fun _ _ hm => keeps_settle (hm.heap.findMethod hrs hname)

theorem Mirrors.primitiveSearch (hm : ρ.Mirrors m n) (hvw : ρ.Alike v w)
    (hname : ρ.Alike name name') :
    ρ.Alike (World.primitiveSearch m v name) (World.primitiveSearch n w name') := by
  unfold World.primitiveSearch
  rw [hm.heap.primitive? hvw]
  cases n.heap.primitive? w with
  | none => exact .absent
  | some p => exact hm.heap.findMethod (hm.state.primitives p) hname

theorem keeps_primitiveMethod (hvw : ρ.Alike v w) (hname : ρ.Alike name name') :
    ρ.Keeps (primitiveMethod v name) (primitiveMethod w name') := by
  intro m n hm
  rw [World.primitiveMethod_eq, World.primitiveMethod_eq]
  exact keeps_settle (hm.primitiveSearch hvw hname) m n hm

/-- A search leaves both machines as they are. -/
theorem ends_settle {x y : Exec (Option Entry)} {found found' : Search Entry}
    (hx : x m = settle found m) (hy : y n = settle found' n) (hfound : ρ.Alike found found')
    {f g : Option Entry → Exec α}
    (hfg : ∀ e? e'?, ρ.Alike e? e'? → ρ.Ends R (f e? m) (g e'? n)) :
    ρ.Ends R ((x >>= f) m) ((y >>= g) n) := by
  cases hfound with
  | found he =>
    rw [bind_of_ok hx, bind_of_ok hy]
    exact hfg _ _ (.some he)
  | absent =>
    rw [bind_of_ok hx, bind_of_ok hy]
    exact hfg _ _ .none
  | endless =>
    rw [bind_of_error hx, bind_of_error hy]
    exact .endless

/-! Invocation. -/

variable [Course R]

theorem ends_runGetter (hhost : host.Uniform R) (hm : ρ.Mirrors m n)
    (hreceiver : ρ.Alike receiver receiver') (hrooted : m.Rooted receiver)
    (hrooted' : n.Rooted receiver') (hvw : ρ.Alike v w) :
    ρ.Ends R (runGetter host receiver v m) (runGetter host receiver' w n) := by
  have hcallee := hm.heap.callee? hvw
  have hrefused := (keeps_breach (α := Value) .getterOperand).lift (R := R) m n hm
  unfold runGetter
  rw [get_bind, get_bind]
  generalize m.heap.callee? v = c? at hcallee
  generalize n.heap.callee? w = d? at hcallee
  cases hcallee with
  | none => exact hrefused
  | some hcallee =>
    cases hcallee with
    | native f => exact ends_runRoutine hhost hm f.routine hreceiver .nil hrooted hrooted' nofun nofun
    | _ => exact hrefused

theorem ends_invokeProperty (hhost : host.Uniform R) (hm : ρ.Mirrors m n)
    (hreceiver : ρ.Alike receiver receiver') (hrooted : m.Rooted receiver)
    (hrooted' : n.Rooted receiver') (he : ρ.Alike e e') (count : Nat) :
    ρ.Ends R (invokeProperty host receiver e count m) (invokeProperty host receiver' e' count n) := by
  have hcall {σ : Renaming} {v w : Value} (hvw : σ.Alike v w) : σ.Does R
      (do
        setSlot (← calleeSlot count) v
        callValue host v count)
      (do
        setSlot (← calleeSlot count) w
        callValue host w count) := by
    refine (keeps_calleeSlot count).then fun base base' hbase => ?_
    obtain rfl : base = base' := hbase
    exact (keeps_setSlot base hvw).then fun _ _ _ => does_callValue hhost hvw count
  unfold invokeProperty
  rw [he.kind]
  cases e'.kind with
  | value => exact hcall he.value m n hm
  | getter =>
    refine (ends_runGetter hhost hm hreceiver hrooted hrooted' he.value).bind (fun _ => id) ?_
    intro σ v w m' n' _ _ hR hσ hvw
    exact Ends.after hR (hcall hvw m' n' hσ)

theorem ends_invokeMethod (hhost : host.Uniform R) (hm : ρ.Mirrors m n)
    (hreceiver : ρ.Alike receiver receiver') (hrooted : m.Rooted receiver)
    (hrooted' : n.Rooted receiver') (he : ρ.Alike e e') (count : Nat) :
    ρ.Ends R (invokeMethod host receiver e count m) (invokeMethod host receiver' e' count n) := by
  unfold invokeMethod
  rw [he.kind]
  cases e'.kind with
  | value => exact does_callValue hhost he.value count m n hm
  | getter => exact ends_invokeProperty hhost hm hreceiver hrooted hrooted' he count

theorem ends_invokeOnInstance (hhost : host.Uniform R) (hm : ρ.Mirrors m n)
    (hreceiver : ρ.Alike receiver receiver') (hrooted : m.Rooted receiver)
    (hrooted' : n.Rooted receiver') (hrs : ρ.pairs r s) (hname : ρ.Alike name name') (count : Nat)
    (fromSelf : Bool) :
    ρ.Ends R (invokeOnInstance host receiver r name count fromSelf m)
      (invokeOnInstance host receiver' s name' count fromSelf n) := by
  have hfield := hm.fieldEntry? hreceiver hname
  unfold invokeOnInstance
  rw [get_bind, get_bind, hm.heap.isPrivate hname, hm.nameText hname, hm.heap.className hrs]
  generalize m.fieldEntry? receiver name = e? at hfield
  generalize n.fieldEntry? receiver' name' = e'? at hfield
  cases hfield with
  | some he => exact ends_invokeProperty hhost hm hreceiver hrooted hrooted' he count
  | none =>
    dsimp only
    split
    · exact (grows_misuse _).lift m n hm
    · refine ends_settle rfl rfl (hm.heap.findMethod hrs hname) fun e? e'? he => ?_
      cases he with
      | none => exact (grows_misuse _).lift m n hm
      | some he => exact ends_invokeMethod hhost hm hreceiver hrooted hrooted' he count

theorem does_invoke (hhost : host.Uniform R) (hname : ρ.Alike name name') (count : Nat)
    (fromSelf : Bool) :
    ρ.Does R (invoke host name count fromSelf) (invoke host name' count fromSelf) := by
  intro m n hm
  unfold invoke
  by_cases hcount : count < m.stack.size
  · have hcount' : count < n.stack.size := by rwa [← hm.size]
    have hreceiver := alike_getD hm.state.stack (n.stack.size - (count + 1)) Value.Alike.nil
    have hrooted := World.rooted_getD (m := m) (n.stack.size - (count + 1))
    have hrooted' := World.rooted_getD (m := n) (n.stack.size - (count + 1))
    rw [bind_of_ok (World.peek_of_lt hcount), bind_of_ok (World.peek_of_lt hcount'),
      bind_of_ok (World.calleeSlot_of_lt hcount), bind_of_ok (World.calleeSlot_of_lt hcount'),
      get_bind, get_bind, hm.size, hm.nameText hname]
    generalize m.stack.getD (n.stack.size - (count + 1)) .nil = receiver at hreceiver hrooted
    generalize n.stack.getD (n.stack.size - (count + 1)) .nil = receiver' at hreceiver hrooted'
    rw [hm.typeName hreceiver]
    have hinstance := hm.heap.instanceClass? hreceiver
    have hclass := hm.classOf? hreceiver
    have hentry := hm.dictEntry? hreceiver hname
    generalize m.heap.instanceClass? receiver = r? at hinstance
    generalize n.heap.instanceClass? receiver' = s? at hinstance
    cases hinstance with
    | some hrs =>
      exact ends_invokeOnInstance hhost hm hreceiver hrooted hrooted' hrs hname count fromSelf
    | none =>
      generalize m.classOf? receiver = c? at hclass
      generalize n.classOf? receiver' = d? at hclass
      cases hclass with
      | @some c d hcd =>
        have hstatic := hm.heap.static? hcd hname
        dsimp only
        rw [hcd.name]
        generalize c.static? m.heap.pool name = e? at hstatic
        generalize d.static? n.heap.pool name' = e'? at hstatic
        cases hstatic with
        | none => exact (grows_misuse _).lift m n hm
        | some he => exact does_callValue hhost he.value count m n hm
      | none =>
        dsimp only
        generalize m.dictEntry? receiver name = e? at hentry
        generalize n.dictEntry? receiver' name' = e'? at hentry
        cases hentry with
        | some he =>
          have hcall := (keeps_setSlot (n.stack.size - (count + 1)) he.value).then
            fun _ _ _ => does_callValue hhost he.value count
          exact hcall m n hm
        | none =>
          refine ends_settle (World.primitiveMethod_eq _ _ m) (World.primitiveMethod_eq _ _ n)
            (hm.primitiveSearch hreceiver hname) fun e? e'? he => ?_
          cases he with
          | none => exact (grows_misuse _).lift m n hm
          | some he => exact ends_invokeMethod hhost hm hreceiver hrooted hrooted' he count
  · have hcount' : ¬ count < n.stack.size := by rwa [← hm.size]
    rw [bind_of_error (World.peek_of_le (Nat.le_of_not_lt hcount)),
      bind_of_error (World.peek_of_le (Nat.le_of_not_lt hcount'))]
    exact (keeps_breach (α := Unit) _).lift m n hm

/-! Superclasses. -/

omit [Course R] in
theorem keeps_popClass : ρ.Keeps popClass popClass := by
  refine keeps_pop.then fun v w hvw => ?_
  cases hvw with
  | ref hrs =>
    refine does_get fun m n hm => ?_
    rw [hm.heap.isClass hrs]
    split
    · exact keeps_pure hrs
    · exact keeps_breach _
  | _ => exact keeps_breach _

theorem does_invokeSuper (hhost : host.Uniform R) (hname : ρ.Alike name name') (count : Nat) :
    ρ.Does R (invokeSuper host name count) (invokeSuper host name' count) := by
  refine keeps_popClass.then fun r s hrs => (keeps_findMethod hrs hname).then fun e? e'? he => ?_
  cases he with
  | some he => exact does_callValue hhost he.value count
  | none =>
    refine does_get fun m n hm => ?_
    rw [hm.heap.className hrs, hm.nameText hname]
    exact (grows_misuse _).lift

theorem does_superConstructor (hhost : host.Uniform R) (count : Nat) :
    ρ.Does R (superConstructor host count) (superConstructor host count) := by
  refine keeps_popClass.then fun r s hrs => ?_
  intro m n hm
  have hconstructor := alike_bind (hm.heap.class? hrs) (f := Class.constructor?)
    (g := Class.constructor?) fun c d hcd => hcd.constructor?
  rw [get_bind, get_bind, hm.heap.className hrs]
  generalize (m.heap.class? r).bind Class.constructor? = v? at hconstructor
  generalize (n.heap.class? s).bind Class.constructor? = w? at hconstructor
  cases hconstructor with
  | none =>
    dsimp only
    split
    · exact (grows_misuse _).lift m n hm
    · exact .ok (Course.le (le_refl ρ)) hm rfl
  | @some v w hvw =>
    have hcall := does_callValue hhost hvw count m n hm
    have hcallee := hm.heap.callee? hvw
    dsimp only
    generalize m.heap.callee? v = c? at hcallee
    generalize n.heap.callee? w = d? at hcallee
    cases hcallee with
    | none => exact hcall
    | some hcallee =>
      cases hcallee with
      | native f =>
        dsimp only
        by_cases hcount : count < m.stack.size
        · have hcount' : count < n.stack.size := by rwa [← hm.size]
          rw [bind_of_ok (World.calleeSlot_of_lt hcount),
            bind_of_ok (World.calleeSlot_of_lt hcount'), hm.size]
          exact ends_nativeConstructor hhost hm f count _
        · have hcount' : ¬ count < n.stack.size := by rwa [← hm.size]
          rw [bind_of_error (World.calleeSlot_of_le (Nat.le_of_not_lt hcount)),
            bind_of_error (World.calleeSlot_of_le (Nat.le_of_not_lt hcount'))]
          exact (keeps_breach (α := Unit) _).lift m n hm
      | _ => exact hcall

end Renaming

end ScriptMachine
