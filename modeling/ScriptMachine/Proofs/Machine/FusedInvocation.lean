import ScriptMachine.Proofs.Machine.Cover.Invocation
import ScriptMachine.Proofs.Machine.Lineage
import ScriptMachine.Proofs.Machine.Renaming.Call
import ScriptMachine.Proofs.Machine.Renaming.Sameness
import ScriptMachine.Proofs.Machine.StockNatives

/-!
Calling what a name leads to. One instruction finds a name on a receiver below the arguments and
calls what it finds. It comes to the same to read the property first, then to push the arguments and
to call: a field or an entry takes the place of the receiver either way, and a method is called with
the receiver in its place, once directly and once through a bound method that is made on the way.
-/

namespace ScriptMachine

/-- A host whose natives give their receiver. -/
def Host.echo : Host := fun _ receiver _ m => (some receiver, m)

theorem Host.uniform_echo : Host.echo.Uniform (· ≤ ·) where
  native ρ _ _ _ _ _ _ _ hm hreceiver _ _ _ _ _ := ⟨ρ, le_refl ρ, hm, .some hreceiver⟩
  stack _ _ _ _ := rfl

namespace Heap

variable {h : Heap}

/-- The receiver to start from matters only if nothing is bound. -/
theorem unbind_eq_map (fuel : Nat) (receiver? : Option Value) (v : Value) :
    h.unbind fuel receiver? v =
      (h.unbind fuel none v).map fun p => (p.1.or receiver?, p.2) := by
  induction fuel generalizing receiver? v with
  | zero =>
    unfold unbind
    split <;> simp
  | succ fuel ih =>
    unfold unbind
    split
    · rename_i b _
      dsimp only
      rw [ih (some b.receiver)]
      cases h.unbind fuel none b.method <;> simp
    · simp

/-- What a bound method leads to is what it binds leads to, on its receiver if there is no other. -/
theorem unbind_bound {v : Value} {b : BoundMethod} (hb : h.callee? v = some (.bound b)) :
    h.unbind h.linkLimit none v =
      (h.unbind h.linkLimit none b.method).map fun p => (some (p.1.getD b.receiver), p.2) := by
  rw [unbind_eq_of_le (Nat.le_succ _), unbind, hb]
  dsimp only
  rw [unbind_eq_map]
  congr 1
  funext p
  cases p.1 <;> rfl

end Heap

namespace Machine

variable {host : Host} {m : Machine} {below args : Array Value} {receiver name v w : Value}
  {e : Entry} {fromSelf : Bool}

/-- What a name leads to: a field of an instance, an entry of a dict, or else a method of the class
of the value. -/
def lookup (m : Machine) (receiver name : Value) : Search Entry :=
  match (m.fieldEntry? receiver name).or (m.dictEntry? receiver name) with
  | some e => .found e
  | none =>
    match (m.heap.instanceClass? receiver).or
      ((m.heap.primitive? receiver).map m.builtins.primitive) with
    | some cls => m.heap.findMethod cls name
    | none => .absent

/-- Reads a property of the value on top, pushes arguments and calls what was read. -/
def getThenCall (host : Host) (name : Value) (args : Array Value) (fromSelf : Bool) :
    Exec Unit := do
  getProperty host name fromSelf
  modify fun m => { m with stack := m.stack ++ args }
  callValue host (← peek args.size) args.size

/-! A value below the arguments of its call. -/

theorem size_of_called (hstack : m.stack = below.push v ++ args) :
    m.stack.size = below.size + 1 + args.size := by
  rw [hstack, Array.size_append, Array.size_push]

theorem calleeSlot_called (hstack : m.stack = below.push v ++ args) :
    calleeSlot args.size m = .ok below.size m := by
  have hsize := size_of_called hstack
  rw [World.calleeSlot_of_lt (by omega), hsize]
  congr 1
  omega

theorem peek_called (hstack : m.stack = below.push v ++ args) :
    peek args.size m = .ok v m := by
  have hsize := size_of_called hstack
  have hslot : m.stack.size - (args.size + 1) = below.size := by omega
  rw [World.peek_of_lt (by omega), hslot, hstack, Array.getD_eq_getD_getElem?,
    Array.getElem?_append_left (by rw [Array.size_push]; omega), Array.getElem?_push_size]
  rfl

theorem peek_pushed (hstack : m.stack = below.push v) : peek 0 m = .ok v m := by
  exact peek_called (hstack.trans Array.append_empty.symm)

theorem setIfInBounds_push (below : Array Value) (v w : Value) :
    (below.push v).setIfInBounds below.size w = below.push w := by
  apply Array.ext_getElem?
  intro i
  rw [Array.getElem?_setIfInBounds, Array.getElem?_push, Array.getElem?_push, Array.size_push]
  by_cases hi : below.size = i
  · rw [if_pos hi, if_pos (by omega), if_pos hi.symm]
  · rw [if_neg hi, if_neg (Ne.symm hi), if_neg (Ne.symm hi)]

theorem setIfInBounds_called (below args : Array Value) (v w : Value) :
    (below.push v ++ args).setIfInBounds below.size w = below.push w ++ args := by
  have hlow : below.size < (below.push v).size := by
    rw [Array.size_push]
    omega
  rw [Array.setIfInBounds_append_left hlow, setIfInBounds_push]

theorem setSlot_called (hstack : m.stack = below.push v ++ args) :
    setSlot below.size w m = .ok () { m with stack := below.push w ++ args } := by
  rw [← setIfInBounds_called below args v w, ← hstack]
  rfl

theorem setTop_pushed (hstack : m.stack = below.push v) :
    setTop w m = .ok () { m with stack := below.push w } := by
  have htop : m.stack.isEmpty = false := by
    rw [hstack]
    simp
  have hset : m.stack.setIfInBounds (m.stack.size - 1) w = below.push w := by
    rw [hstack, Array.size_push, Nat.add_sub_cancel, setIfInBounds_push]
  unfold setTop
  rw [get_bind, htop, ← hset]
  rfl

/-- What is called takes its receiver's place, or keeps its own. -/
theorem callValue_called (hstack : m.stack = below.push v ++ args) {receiver? : Option Value}
    {target : Value} (hunbind : m.heap.unbind m.heap.linkLimit none w = some (receiver?, target)) :
    callValue host w args.size m =
      callTarget host m target args.size
        { m with stack := below.push (receiver?.getD v) ++ args } := by
  unfold callValue
  rw [get_bind, hunbind]
  cases receiver? with
  | none =>
    show callTarget host m target args.size m = _
    congr 1
    rw [Option.getD_none, ← hstack]
  | some receiver =>
    dsimp only
    rw [bind_of_ok (calleeSlot_called hstack), bind_of_ok (setSlot_called hstack)]
    rfl

/-- A name is not hidden from the receiver itself, and a public one from nobody. -/
theorem not_hidden (hvisible : fromSelf = true ∨ m.heap.isPrivate name = false) :
    ¬ (!fromSelf && m.heap.isPrivate name) = true := by
  rcases hvisible with hself | hpublic
  · simp [hself]
  · simp [hpublic]

/-! A field or an entry takes the place of the receiver. -/

theorem exists_instance_of_fieldEntry? (h : m.fieldEntry? receiver name = some e) :
    ∃ i, m.heap.object? receiver = some (.inst i) := by
  unfold fieldEntry? at h
  split at h
  · exact ⟨_, by assumption⟩
  · cases h

theorem exists_dict_of_dictEntry? (h : m.dictEntry? receiver name = some e) :
    ∃ d, m.heap.object? receiver = some (.dict d) := by
  unfold dictEntry? at h
  split at h
  · exact ⟨_, by assumption⟩
  · cases h

/-- An entry is on an instance or on a dict. -/
theorem datum_cases
    (hdatum : (m.fieldEntry? receiver name).or (m.dictEntry? receiver name) = some e) :
    (∃ cls, m.heap.instanceClass? receiver = some cls ∧ m.fieldEntry? receiver name = some e) ∨
    m.heap.instanceClass? receiver = none ∧ m.classOf? receiver = none ∧
      m.dictEntry? receiver name = some e := by
  rcases Option.or_eq_some_iff.1 hdatum with hfield | ⟨-, hentry⟩
  · obtain ⟨i, hi⟩ := exists_instance_of_fieldEntry? hfield
    exact Or.inl ⟨i.cls, by simp only [Heap.instanceClass?, hi], hfield⟩
  · obtain ⟨d, hd⟩ := exists_dict_of_dictEntry? hentry
    exact Or.inr ⟨by simp only [Heap.instanceClass?, hd], by simp only [classOf?, hd], hentry⟩

theorem invokeProperty_value (hkind : e.kind = .value) (count : Nat) :
    invokeProperty host receiver e count = (do
      setSlot (← calleeSlot count) e.value
      callValue host e.value count) := by
  unfold invokeProperty
  rw [hkind]
  rfl

theorem invoke_datum (hstack : m.stack = below.push receiver ++ args)
    (hdatum : (m.fieldEntry? receiver name).or (m.dictEntry? receiver name) = some e)
    (hkind : e.kind = .value) :
    invoke host name args.size fromSelf m =
      callValue host e.value args.size { m with stack := below.push e.value ++ args } := by
  unfold invoke
  rw [bind_of_ok (peek_called hstack), bind_of_ok (calleeSlot_called hstack), get_bind]
  rcases datum_cases hdatum with ⟨cls, hcls, hfield⟩ | ⟨hinstance, hclass, hentry⟩
  · rw [hcls]
    dsimp only
    unfold invokeOnInstance
    rw [get_bind, hfield]
    dsimp only
    rw [invokeProperty_value hkind, bind_of_ok (calleeSlot_called hstack),
      bind_of_ok (setSlot_called hstack)]
  · rw [hinstance, hclass, hentry]
    dsimp only
    rw [bind_of_ok (setSlot_called hstack)]

theorem getProperty_datum (hstack : m.stack = below.push receiver)
    (hdatum : (m.fieldEntry? receiver name).or (m.dictEntry? receiver name) = some e)
    (hkind : e.kind = .value) (hvisible : fromSelf = true ∨ m.heap.isPrivate name = false) :
    getProperty host name fromSelf m = .ok () { m with stack := below.push e.value } := by
  have hpeek : peek 0 m = .ok receiver m := peek_pushed hstack
  have hshow : showField host receiver e m = .ok () { m with stack := below.push e.value } := by
    unfold showField
    rw [hkind]
    exact setTop_pushed hstack
  unfold getProperty
  rw [bind_of_ok hpeek, get_bind]
  rcases datum_cases hdatum with ⟨cls, hcls, hfield⟩ | ⟨hinstance, hclass, hentry⟩
  · rw [hcls]
    dsimp only
    unfold getOnInstance
    rw [get_bind, if_neg (not_hidden hvisible), hfield]
    exact hshow
  · rw [hinstance, hclass, hentry]
    exact hshow

/-! A method is called with the receiver in its place. -/

/-- A method is found by the class of an instance, or by that of a primitive value. -/
theorem method_cases {cls : Ref} (hcls : (m.heap.instanceClass? receiver).or
      ((m.heap.primitive? receiver).map m.builtins.primitive) = some cls) :
    m.heap.instanceClass? receiver = some cls ∨
    m.heap.instanceClass? receiver = none ∧ m.classOf? receiver = none ∧
      ∃ p, m.heap.primitive? receiver = some p ∧ m.builtins.primitive p = cls := by
  rcases Option.or_eq_some_iff.1 hcls with hinstance | ⟨hinstance, hprimitive⟩
  · exact Or.inl hinstance
  · obtain ⟨p, hp, hpcls⟩ := Option.map_eq_some_iff.1 hprimitive
    refine Or.inr ⟨hinstance, ?_, p, hp, hpcls⟩
    -- no class is a primitive value
    unfold Heap.primitive? at hp
    unfold classOf? Heap.object?
    split at hp
    · rfl
    · rfl
    · dsimp only
      split at hp <;> simp_all
    · cases hp

theorem findMethod_found {cls : Ref} (hfound : m.heap.findMethod cls name = .found e) :
    findMethod cls name m = .ok (some e) m := by
  unfold findMethod
  rw [get_bind, hfound]
  rfl

theorem primitiveMethod_found {p : Primitive} (hp : m.heap.primitive? receiver = some p)
    (hfound : m.heap.findMethod (m.builtins.primitive p) name = .found e) :
    primitiveMethod receiver name m = .ok (some e) m := by
  unfold primitiveMethod
  rw [get_bind, hp]
  dsimp only
  rw [hfound]
  rfl

theorem invoke_method (hstack : m.stack = below.push receiver ++ args)
    (hdatum : (m.fieldEntry? receiver name).or (m.dictEntry? receiver name) = none) {cls : Ref}
    (hcls : (m.heap.instanceClass? receiver).or
      ((m.heap.primitive? receiver).map m.builtins.primitive) = some cls)
    (hfound : m.heap.findMethod cls name = .found e) (hkind : e.kind = .value)
    (hvisible : fromSelf = true ∨ m.heap.isPrivate name = false) :
    invoke host name args.size fromSelf m = callValue host e.value args.size m := by
  obtain ⟨hfield, hentry⟩ := Option.or_eq_none_iff.1 hdatum
  have hcall : invokeMethod host receiver e args.size = callValue host e.value args.size := by
    unfold invokeMethod
    rw [hkind]
  unfold invoke
  rw [bind_of_ok (peek_called hstack), bind_of_ok (calleeSlot_called hstack), get_bind]
  rcases method_cases hcls with hinstance | ⟨hinstance, hclass, p, hp, rfl⟩
  · rw [hinstance]
    dsimp only
    unfold invokeOnInstance
    rw [get_bind, hfield]
    dsimp only
    rw [if_neg (not_hidden hvisible), bind_of_ok (findMethod_found hfound)]
    dsimp only
    rw [hcall]
  · rw [hinstance, hclass, hentry]
    dsimp only
    rw [bind_of_ok (primitiveMethod_found hp hfound)]
    dsimp only
    rw [hcall]

theorem getProperty_method (hstack : m.stack = below.push receiver)
    (hdatum : (m.fieldEntry? receiver name).or (m.dictEntry? receiver name) = none) {cls : Ref}
    (hcls : (m.heap.instanceClass? receiver).or
      ((m.heap.primitive? receiver).map m.builtins.primitive) = some cls)
    (hfound : m.heap.findMethod cls name = .found e) (hkind : e.kind = .value)
    (hvisible : fromSelf = true ∨ m.heap.isPrivate name = false) :
    let made := m.alloc (.bound { receiver, method := e.value })
    getProperty host name fromSelf m = .ok () { made.2 with stack := below.push made.1 } := by
  intro made
  obtain ⟨hfield, hentry⟩ := Option.or_eq_none_iff.1 hdatum
  have hpeek : peek 0 m = .ok receiver m := peek_pushed hstack
  have hshow : showMethod host receiver e m =
      .ok () { made.2 with stack := below.push made.1 } := by
    unfold showMethod
    rw [hkind]
    show setTop made.1 made.2 = _
    exact setTop_pushed hstack
  unfold getProperty
  rw [bind_of_ok hpeek, get_bind]
  rcases method_cases hcls with hinstance | ⟨hinstance, hclass, p, hp, rfl⟩
  · rw [hinstance]
    dsimp only
    unfold getOnInstance
    rw [get_bind, if_neg (not_hidden hvisible), hfield]
    dsimp only
    rw [bind_of_ok (findMethod_found hfound)]
    exact hshow
  · rw [hinstance, hclass, hentry]
    dsimp only
    unfold getOnPrimitive
    rw [get_bind, hp]
    dsimp only
    rw [bind_of_ok (primitiveMethod_found hp hfound)]
    exact hshow

theorem getThenCall_eq {q : Machine}
    (hget : getProperty host name fromSelf m = .ok () { q with stack := below.push v }) :
    getThenCall host name args fromSelf m =
      callValue host v args.size { q with stack := below.push v ++ args } := by
  unfold getThenCall
  rw [bind_of_ok hget, modify_bind, bind_of_ok (peek_called rfl)]

/-- A bound method is called as what it binds, with its receiver in its place. Endless is the one if
and only if the other is. -/
theorem callValue_bound (hstack : m.stack = below.push v ++ args) {b : BoundMethod}
    (hb : m.heap.callee? w = some (.bound b)) :
    let start : Machine := { m with stack := below.push b.receiver ++ args }
    callValue host w args.size m = callValue host b.method args.size start ∨
    callValue host w args.size m = .error .endless m ∧
      callValue host b.method args.size start = .error .endless start := by
  intro start
  have hunbind := Heap.unbind_bound hb
  cases hmethod : m.heap.unbind m.heap.linkLimit none b.method with
  | none =>
    rw [hmethod] at hunbind
    have hmethod' : start.heap.unbind start.heap.linkLimit none b.method = none := hmethod
    refine Or.inr ⟨?_, ?_⟩
    · unfold callValue
      rw [get_bind, hunbind]
      rfl
    · unfold callValue
      rw [get_bind, hmethod']
      rfl
  | some p =>
    rw [hmethod] at hunbind
    have hmethod' : start.heap.unbind start.heap.linkLimit none b.method = some p := hmethod
    exact Or.inl ((callValue_called hstack hunbind).trans (callValue_called rfl hmethod').symm)

/-- What a name leads to is in occupied slots. -/
theorem Sound.occupied_lookup (hm : m.Sound) (hfound : m.lookup receiver name = .found e) :
    m.heap.OccupiedValue e.value := by
  have hcovers : (World.start ⟨m, .initial m, []⟩).Covers m := hm.covers nofun
  have hknows : (World.start ⟨m, .initial m, []⟩).Knows e := by
    unfold lookup at hfound
    split at hfound
    · rename_i hdatum
      cases hfound
      rcases Option.or_eq_some_iff.1 hdatum with hfield | ⟨-, hentry⟩
      · exact hcovers.fieldEntry? hfield
      · exact hcovers.dictEntry? hentry
    · split at hfound
      · exact hcovers.findMethod hfound
      · cases hfound
  exact fun r hr => hcovers.heap.occupied (hknows r (List.mem_append_right _ hr))

variable {R : Renaming → Renaming → Prop} [Renaming.Course R]

/-- A call ends as the same call in the same machine does. -/
theorem Sound.ends_callValue (hhost : host.Uniform R) (hsound : m.Sound) (hordered : m.InOrder)
    (hstack : m.stack = below.push v ++ args) (hw : m.heap.OccupiedValue w) :
    ∃ ρ : Renaming, (∀ r, m.heap.Occupied r → ρ.pairs r r) ∧
      ρ.Ends R (callValue host w args.size { m with stack := below.push w ++ args })
        (callValue host w args.size { m with stack := below.push w ++ args }) := by
  have hheap := hsound.composed hordered
  have hm := hsound.mirrors hordered hheap rfl (fun _ _ => id) rfl
  have hself : (Renaming.sameness hheap hheap rfl).Alike w w :=
    Value.alike_self fun r hr => Renaming.sameness_pairs (hw r hr)
  have hplaced := hm.setSlot below.size hself
  rw [hstack, setIfInBounds_called] at hplaced
  exact ⟨_, fun r hr => Renaming.sameness_pairs hr,
    Renaming.does_callValue hhost hself args.size _ _ hplaced⟩

/-- A method is called on a receiver in its place as it is through a bound method. -/
theorem Sound.ends_callBound (hhost : host.Uniform R) (hsound : m.Sound) (hordered : m.InOrder)
    (hstack : m.stack = below.push receiver ++ args) (hw : m.heap.OccupiedValue w) :
    let made := m.alloc (.bound { receiver, method := w })
    ∃ ρ : Renaming, (∀ r, m.heap.Occupied r → ρ.pairs r r) ∧
      ρ.Ends R (callValue host w args.size m)
        (callValue host made.1 args.size { made.2 with stack := below.push made.1 ++ args }) := by
  intro made
  have hheap := hsound.composed hordered
  have hk : made.2.heap.Composed := hheap.alloc nofun nofun
  have hkept (r : Ref) (o : Object) (hr : m.heap.get? r = some o) : made.2.heap.get? r = some o :=
    hheap.wellFormed.get?_alloc_of_get? _ hr
  let ρ := Renaming.sameness hheap hk rfl
  have hm : ρ.Mirrors m made.2 := hsound.mirrors hordered hk rfl hkept rfl
  have hself : ρ.Alike w w := Value.alike_self fun r hr => Renaming.sameness_pairs (hw r hr)
  have hends := Renaming.does_callValue hhost hself args.size m made.2 hm
  refine ⟨ρ, fun r hr => Renaming.sameness_pairs hr, ?_⟩
  have hget : made.2.heap.object? made.1 = some (.bound { receiver, method := w }) :=
    (Heap.get?_alloc hsound.heap _ _).trans (if_pos rfl)
  have hcallee : made.2.heap.callee? made.1 = some (.bound { receiver, method := w }) := by
    rw [Heap.callee?_eq_bound, Heap.boundMethod?, hget]
  have hstart : ({ made.2 with stack := below.push receiver ++ args } : Machine) = made.2 := by
    rw [← hstack]
    rfl
  rcases callValue_bound (m := { made.2 with stack := below.push made.1 ++ args }) rfl hcallee
    with hsame | ⟨hendless, hendless'⟩
  · rw [hsame]
    dsimp only
    rw [hstart]
    exact hends
  · rw [hendless]
    dsimp only at hendless'
    rw [hstart] at hendless'
    rw [hendless'] at hends
    exact hends.endless_right

/-! A native method that was just defined. -/

theorem pool_definePrimitive (m : Machine) (p : Primitive) (n : NativeFunction) (kind : EntryKind) :
    (m.definePrimitive p n kind).2.heap.pool = (m.intern n.name).2.heap.pool :=
  Heap.pool_update _ _

theorem Sound.definePrimitive (hsound : m.Sound) (p : Primitive) (n : NativeFunction)
    (kind : EntryKind) : (m.definePrimitive p n kind).2.Sound := by
  have hm : (World.start ⟨m, .initial m, []⟩).Covers m := hsound.covers nofun
  obtain ⟨w, -, hw⟩ := hm.definePrimitive p n kind
  exact hw.sound

/-- The name of the method is held. -/
theorem textOf?_definePrimitive (hwf : m.heap.WellFormed) (p : Primitive) (n : NativeFunction)
    (kind : EntryKind) : (m.definePrimitive p n kind).2.heap.pool.textOf? (m.intern n.name).1 =
      some ⟨n.name, Hash.text n.name⟩ := by
  rw [pool_definePrimitive]
  exact hwf.pool.get?_intern_self n.name

/-- It is private if its text is. -/
theorem isPrivate_definePrimitive (hwf : m.heap.WellFormed) (p : Primitive) (n : NativeFunction)
    (kind : EntryKind) : (m.definePrimitive p n kind).2.heap.isPrivate (m.intern n.name).1 =
      n.name.startsWith "_" := by
  rw [Heap.isPrivate, Heap.text?, textOf?_definePrimitive hwf]
  rfl

/-- A native method of texts is found on them. -/
theorem lookup_definePrimitive (hsound : m.Sound) (hordered : m.InOrder) {c : Class}
    (hc : m.heap.class? (m.builtins.primitive .text) = some c) (n : NativeFunction)
    (kind : EntryKind) (i : Nat) :
    ∃ e, (m.definePrimitive .text n kind).2.lookup (.ref (.text i)) (m.intern n.name).1 = .found e ∧
      e.kind = kind := by
  have hnamed := hsound.heap.intern n.name
  let native := (m.intern n.name).2.alloc (.native n)
  let pool := (m.intern n.name).2.heap.pool
  let methods := (c.methods.insert pool (m.intern n.name).1 native.1 kind).2
  have hget := Heap.class?_eq_some.1 hc
  let made := (m.definePrimitive .text n kind).2
  have hclass : made.heap.class? (made.builtins.primitive .text) = some { c with methods } := by
    rw [Heap.class?_eq_some]
    show (Heap.update _ _ _).get? (m.builtins.primitive .text) = _
    rw [Heap.get?_update, if_pos rfl]
    show Option.map _ (((m.heap.intern n.name).2.alloc (.native n)).2.get? _) = _
    rw [hnamed.get?_alloc_of_get? (.native n) hget]
    rfl
  have hpool : made.heap.pool = pool := pool_definePrimitive m .text n kind
  have horder : c.methods.InOrder pool :=
    (hordered.heap _ _ hget _ List.mem_cons_self).intern hsound.heap.pool n.name
  have hentry : methods.entry? pool (m.intern n.name).1 =
      some (Table.entryFor pool (m.intern n.name).1 native.1 kind) := by
    have hinserted := horder.insert hnamed.pool (holds_intern hsound.heap n.name) native.1 kind
    refine (hinserted.entry?_eq_some hnamed.pool).2 ⟨?_, ?_⟩
    · exact (horder.mem_insert hnamed.pool).2 (Or.inl rfl)
    · exact (hnamed.pool.sameKey_text_iff _ _).2 rfl
  refine ⟨Table.entryFor pool (m.intern n.name).1 native.1 kind, ?_, rfl⟩
  have hlookup : made.lookup (.ref (.text i)) (m.intern n.name).1 =
      made.heap.findMethod (made.builtins.primitive .text) (m.intern n.name).1 := rfl
  rw [hlookup]
  unfold Heap.findMethod Heap.chainLimit Heap.climb
  rw [hclass]
  dsimp only
  rw [hpool, hentry]

/-- A machine with a text and an argument on the stack, and with a native method of texts. -/
def withTextMethod (m : Machine) (n : NativeFunction) : Machine :=
  { (m.definePrimitive .text n .value).2 with stack := #[(m.intern n.name).1, .nil] }

theorem sound_withTextMethod (hsound : m.Sound) (n : NativeFunction) :
    (m.withTextMethod n).Sound := by
  have hmade := hsound.definePrimitive .text n .value
  have hname : (m.definePrimitive .text n .value).2.heap.OccupiedValue (m.intern n.name).1 := by
    intro r hr
    obtain rfl := List.mem_singleton.1 hr
    exact Option.isSome_of_eq_some (textOf?_definePrimitive hsound.heap .text n .value)
  refine ((hmade.covers hname).withStack ?_).sound
  intro v hv r hr
  rcases List.mem_cons.1 (Array.mem_toList_iff.2 hv) with rfl | hv
  · exact Or.inr (Or.inl hr)
  · rw [List.mem_singleton.1 hv] at hr
    cases hr

/-- Calling what a name leads to on a receiver below its arguments ends as reading it, pushing the
arguments and calling does, but for the references of what is made on the way. -/
theorem invoke_agrees (hhost : host.Uniform R) (hsound : m.Sound) (hordered : m.InOrder)
    (hstack : m.stack = below.push receiver ++ args)
    (hfound : m.lookup receiver name = .found e) (hkind : e.kind = .value)
    (hvisible : fromSelf = true ∨ m.heap.isPrivate name = false) :
    ∃ ρ : Renaming, (∀ r, m.heap.Occupied r → ρ.pairs r r) ∧
      ρ.Ends R (invoke host name args.size fromSelf m)
        (getThenCall host name args fromSelf { m with stack := below.push receiver }) := by
  have hoccupied := hsound.occupied_lookup hfound
  let start : Machine := { m with stack := below.push receiver }
  have hstart : start.stack = below.push receiver := rfl
  unfold lookup at hfound
  split at hfound
  · rename_i hdatum
    cases hfound
    rw [invoke_datum hstack hdatum hkind,
      getThenCall_eq (getProperty_datum hstart hdatum hkind hvisible)]
    exact hsound.ends_callValue hhost hordered hstack hoccupied
  · rename_i hdatum
    split at hfound
    · rename_i cls hcls
      rw [invoke_method hstack hdatum hcls hfound hkind hvisible,
        getThenCall_eq (getProperty_method hstart hdatum hcls hfound hkind hvisible)]
      exact hsound.ends_callBound hhost hordered hstack hoccupied
    · cases hfound

theorem invoke_agrees_textMethod :
    let echo : NativeFunction := { name := "echo", arity := some 1, routine := .host "echo" }
    let name := ((Machine.new {}).intern "echo").1
    let m := (Machine.new {}).withTextMethod echo
    ∃ e, m.lookup name name = .found e ∧ e.kind = .value ∧ m.heap.isPrivate name = false ∧
      ∃ ρ : Renaming, (∀ r, m.heap.Occupied r → ρ.pairs r r) ∧
        ρ.Ends (· ≤ ·) (invoke Host.echo name 1 false m)
          (getThenCall Host.echo name #[.nil] false { m with stack := #[name] }) := by
  intro echo
  have hclass : ((Machine.new {}).heap.class? ((Machine.new {}).builtins.primitive .text)).isSome =
    true := by decide +kernel
  obtain ⟨c, hc⟩ := Option.isSome_iff_exists.1 hclass
  have hnew := sound_new {}
  have hordered := inOrder_new {}
  generalize Machine.new {} = new at hc hnew hordered ⊢
  intro name m
  obtain ⟨e, hfound, hkind⟩ := lookup_definePrimitive hnew hordered hc echo .value
    (new.heap.pool.intern "echo").1.1
  have hpublic : m.heap.isPrivate name = false :=
    (isPrivate_definePrimitive hnew.heap .text echo .value).trans (by simp [echo])
  have hordered := hordered.definePrimitive hnew.heap .text echo .value
  have hstack : m.stack = (#[] : Array Value).push name ++ #[.nil] := rfl
  exact ⟨e, hfound, hkind, hpublic, invoke_agrees Host.uniform_echo (sound_withTextMethod hnew echo)
    ⟨hordered.heap, hordered.globals⟩ hstack hfound hkind (Or.inr hpublic)⟩

end Machine

end ScriptMachine
