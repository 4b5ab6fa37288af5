import ScriptMachine.Machine.Member
import ScriptMachine.Proofs.Machine.Cover.Call

/-!
Invocation of methods. An entry comes out of a table of a known object, so its value is known. A
getter of the host runs while its receiver is on the stack.
-/

namespace ScriptMachine.Machine.World

variable {α : Type} [Linked α] {R : World → World → Prop} {w : World} {m : Machine}
  {host : Host}

/-! Searches. -/

theorem Covers.climb (hm : w.Covers m) {pick : Ref → Class → Option α}
    (hpick : ∀ r c a, w.Knows (Object.cls c) → pick r c = some a → w.Knows a) {fuel : Nat} {r : Ref}
    {a : α} (hfound : m.heap.climb pick fuel r = .found a) : w.Knows a := by
  induction fuel generalizing r with
  | zero => cases hfound
  | succ fuel ih =>
    unfold Heap.climb at hfound
    split at hfound
    · cases hfound
    · rename_i c hc
      split at hfound
      · rename_i a' ha'
        cases hfound
        exact hpick r c a (hm.class? hc) ha'
      · split at hfound
        · cases hfound
        · exact ih hfound

theorem Covers.findMethod (hm : w.Covers m) {r : Ref} {name : Value} {e : Entry}
    (hfound : m.heap.findMethod r name = .found e) : w.Knows e := by
  refine hm.climb ?_ hfound
  intro _ c e' hc he'
  exact (knows_cls.1 hc).2.1.entry (Table.mem_entries_of_found he')

theorem Covers.classOf? (hm : w.Covers m) {v : Value} {c : Class} (hc : m.classOf? v = some c) :
    w.Knows (Object.cls c) := by
  unfold Machine.classOf? at hc
  split at hc
  · rename_i c' hobject
    obtain rfl := Option.some.inj hc
    exact hm.object hobject
  · cases hc

theorem knows_static {c : Class} (hc : w.Knows (Object.cls c)) {pool : Pool} {name : Value}
    {e : Entry} (he : c.static? pool name = some e) : w.Knows e := by
  obtain ⟨-, -, hmethods, -, hstatics, -⟩ := knows_cls.1 hc
  rw [Class.static?, Option.orElse_eq_orElse, Option.orElse_eq_or, Option.or_eq_some_iff] at he
  rcases he with hmethod | ⟨-, hstatic⟩
  · exact hmethods.entry (Table.mem_entries_of_found hmethod)
  · exact hstatics.entry (Table.mem_entries_of_found hstatic)

theorem Covers.fieldEntry? (hm : w.Covers m) {receiver name : Value} {e : Entry}
    (he : m.fieldEntry? receiver name = some e) : w.Knows e := by
  unfold Machine.fieldEntry? at he
  split at he
  · rename_i i hi
    exact (knows_inst.1 (hm.object hi)).2.entry (Table.mem_entries_of_found he)
  · cases he

theorem Covers.dictEntry? (hm : w.Covers m) {receiver name : Value} {e : Entry}
    (he : m.dictEntry? receiver name = some e) : w.Knows e := by
  unfold Machine.dictEntry? at he
  split at he
  · rename_i d hd
    exact (knows_dict.1 (hm.object hd)).2.entry (Table.mem_entries_of_found he)
  · cases he

theorem keeps_findMethod (cls : Ref) (name : Value) : w.Keeps (findMethod cls name) :=
  does_get fun _ hm => keeps_settle fun _ he => hm.findMethod he

/-- A method of the class of a primitive value, as a search. -/
def primitiveSearch (m : Machine) (receiver name : Value) : Search Entry :=
  match m.heap.primitive? receiver with
  | some p => m.heap.findMethod (m.builtins.primitive p) name
  | none => .absent

theorem primitiveMethod_eq (receiver name : Value) (m : Machine) :
    primitiveMethod receiver name m = settle (primitiveSearch m receiver name) m := by
  unfold primitiveMethod primitiveSearch
  rw [get_bind]
  cases m.heap.primitive? receiver <;> rfl

theorem Covers.primitiveSearch (hm : w.Covers m) {receiver name : Value} {e : Entry}
    (hfound : primitiveSearch m receiver name = .found e) : w.Knows e := by
  unfold World.primitiveSearch at hfound
  split at hfound
  · exact hm.findMethod hfound
  · cases hfound

theorem keeps_primitiveMethod (receiver name : Value) : w.Keeps (primitiveMethod receiver name) := by
  intro m hm
  rw [primitiveMethod_eq]
  exact keeps_settle (fun _ he => hm.primitiveSearch he) m hm

/-- A search leaves the machine as it is. -/
theorem ends_settle [Std.Refl R] (hm : w.Covers m) {x : Exec (Option Entry)} {s : Search Entry}
    (hx : x m = settle s m) {f : Option Entry → Exec α}
    (hfound : ∀ e, s = .found e → w.Ends R (f (some e) m)) (habsent : w.Ends R (f none m)) :
    w.Ends R ((x >>= f) m) := by
  cases s with
  | found e =>
    rw [bind_of_ok hx]
    exact hfound e rfl
  | absent =>
    rw [bind_of_ok hx]
    exact habsent
  | endless =>
    rw [bind_of_error hx]
    exact does_endless (α := α) m hm

/-! Invocation. -/

theorem ends_runGetter (horderly : host.Orderly) (hm : w.Covers m) {receiver : Value}
    (hrooted : m.Rooted receiver) (getter : Value) :
    w.Ends (Reaches host) (runGetter host receiver getter m) := by
  unfold runGetter
  rw [get_bind]
  cases m.heap.callee? getter with
  | none => exact does_breach (α := Value) _ m hm
  | some callee =>
    cases callee with
    | native n => exact ends_runRoutine horderly hm n.routine hrooted nofun
    | _ => exact does_breach (α := Value) _ m hm

theorem ends_invokeProperty (horderly : host.Orderly) (hm : w.Covers m) {receiver : Value}
    (hrooted : m.Rooted receiver) {e : Entry} (he : w.Knows e) (count : Nat) :
    w.Ends (Reaches host) (invokeProperty host receiver e count m) := by
  have hcall {u : World} {v : Value} (hv : u.Knows v) : u.Runs host (do
      setSlot (← calleeSlot count) v
      callValue host v count) := by
    refine (keeps_calleeSlot count).then fun base _ => (keeps_setSlot base hv).then fun _ _ => ?_
    exact runs_callValue horderly hv count
  unfold invokeProperty
  dsimp only
  cases e.kind with
  | value => exact hcall (knows_entry.1 he).2 m hm
  | getter =>
    refine (ends_runGetter horderly hm hrooted e.value).bind (fun hS hR => Trans.trans hS hR)
      (fun _ hu => hu) ?_
    intro u v m' _ _ hm' hv
    exact hcall hv m' hm'

theorem ends_invokeMethod (horderly : host.Orderly) (hm : w.Covers m) {receiver : Value}
    (hrooted : m.Rooted receiver) {e : Entry} (he : w.Knows e) (count : Nat) :
    w.Ends (Reaches host) (invokeMethod host receiver e count m) := by
  unfold invokeMethod
  cases e.kind with
  | value => exact runs_callValue horderly (knows_entry.1 he).2 count m hm
  | getter => exact ends_invokeProperty horderly hm hrooted he count

theorem ends_invokeOnInstance (horderly : host.Orderly) (hm : w.Covers m) {receiver : Value}
    (hrooted : m.Rooted receiver) (cls : Ref) (name : Value) (count : Nat)
    (fromSelf : Bool) :
    w.Ends (Reaches host) (invokeOnInstance host receiver cls name count fromSelf m) := by
  unfold invokeOnInstance
  rw [get_bind]
  cases hfield : m.fieldEntry? receiver name with
  | some e => exact ends_invokeProperty horderly hm hrooted (hm.fieldEntry? hfield) count
  | none =>
    dsimp only
    split
    · exact does_misuse (α := Unit) _ m hm
    · refine ends_settle hm rfl (fun e he => ?_) (does_misuse (α := Unit) _ m hm)
      exact ends_invokeMethod horderly hm hrooted (hm.findMethod he) count

theorem peek_of_lt {distance : Nat} (hdistance : distance < m.stack.size) :
    peek distance m = .ok (m.stack.getD (m.stack.size - (distance + 1)) .nil) m := by
  unfold peek
  rw [get_bind, if_pos hdistance]
  rfl

theorem peek_of_le {distance : Nat} (hdistance : m.stack.size ≤ distance) :
    peek distance m = .error (.fault (.internal .stackUnderflow)) m := by
  unfold peek
  rw [get_bind, if_neg (Nat.not_lt_of_le hdistance)]
  rfl

theorem runs_invoke (horderly : host.Orderly) (name : Value) (count : Nat) (fromSelf : Bool) :
    w.Runs host (invoke host name count fromSelf) := by
  intro m hm
  unfold invoke
  by_cases hcount : count < m.stack.size
  · rw [bind_of_ok (peek_of_lt hcount), bind_of_ok (calleeSlot_of_lt hcount), get_bind]
    have hrooted := rooted_getD (m := m) (m.stack.size - (count + 1))
    generalize m.stack.getD (m.stack.size - (count + 1)) .nil = receiver at hrooted
    cases m.heap.instanceClass? receiver with
    | some cls => exact ends_invokeOnInstance horderly hm hrooted cls name count fromSelf
    | none =>
      cases hclass : m.classOf? receiver with
      | some c =>
        dsimp only
        cases hstatic : c.static? m.heap.pool name with
        | some e =>
          have he := knows_static (hm.classOf? hclass) hstatic
          exact runs_callValue horderly (knows_entry.1 he).2 count m hm
        | none => exact does_misuse (α := Unit) _ m hm
      | none =>
        dsimp only
        cases hentry : m.dictEntry? receiver name with
        | some e =>
          have hvalue := (knows_entry.1 (hm.dictEntry? hentry)).2
          exact (keeps_setSlot _ hvalue).then (fun _ _ => runs_callValue horderly hvalue count) m hm
        | none =>
          refine ends_settle hm (primitiveMethod_eq receiver name m) (fun e he => ?_)
            (does_misuse (α := Unit) _ m hm)
          exact ends_invokeMethod horderly hm hrooted (hm.primitiveSearch he) count
  · rw [bind_of_error (peek_of_le (Nat.le_of_not_lt hcount))]
    exact does_breach (α := Unit) _ m hm

theorem keeps_popClass : w.Keeps popClass := by
  refine keeps_pop.then fun v hv => ?_
  split
  · apply does_get
    intro m hm
    split
    · exact does_pure (knows_reference.2 (knows_ref.1 hv))
    · exact does_breach _
  · exact does_breach _

theorem runs_invokeSuper (horderly : host.Orderly) (name : Value) (count : Nat) :
    w.Runs host (invokeSuper host name count) := by
  refine keeps_popClass.then fun superclass _ => (keeps_findMethod _ _).then fun e? he => ?_
  split
  · exact runs_callValue horderly (knows_entry.1 (knows_some.1 he)).2 count
  · exact does_get fun _ _ => does_misuse _

theorem runs_superConstructor (horderly : host.Orderly) (count : Nat) :
    w.Runs host (superConstructor host count) := by
  refine keeps_popClass.then fun superclass _ => ?_
  intro m hm
  rw [get_bind]
  cases hctor : (m.heap.class? superclass).bind Class.constructor? with
  | none =>
    dsimp only
    split
    · exact does_misuse (α := Unit) _ m hm
    · exact does_pure (α := Unit) (knows_plain rfl) m hm
  | some ctor =>
    have hknows : w.Knows ctor := by
      obtain ⟨c, hc, hconstructor⟩ := Option.bind_eq_some_iff.1 hctor
      have hcls := (knows_cls.1 (hm.class? hc)).2.2.2.2.2
      rw [hconstructor] at hcls
      exact knows_some.1 hcls
    have hcall := runs_callValue horderly hknows count m hm
    dsimp only
    cases m.heap.callee? ctor with
    | none => exact hcall
    | some callee =>
      cases callee with
      | native n =>
        dsimp only
        by_cases hcount : count < m.stack.size
        · rw [bind_of_ok (calleeSlot_of_lt hcount)]
          exact ends_construct horderly hm n count _
        · rw [bind_of_error (calleeSlot_of_le (Nat.le_of_not_lt hcount))]
          exact does_breach (α := Unit) _ m hm
      | _ => exact hcall

end ScriptMachine.Machine.World
