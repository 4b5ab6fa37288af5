import ScriptMachine.Proofs.Machine.Renaming.Invocation

/-!
Classes and properties of values that are alike. A member is stored into paired classes, under keys
that are alike; what is read is alike, and bound methods are paired.
-/

namespace ScriptMachine

open Machine

namespace Renaming

variable {R : Renaming → Renaming → Prop} {ρ : Renaming} {m n : Machine} {h k : Heap}
  {v w name name' receiver receiver' : Value} {e e' : Entry} {r s : Ref} {c d : Class} {host : Host}

/-! Classes. -/

theorem grows_makeClass (hname : ρ.Alike name name') :
    ρ.Grows (makeClass name) (makeClass name') := by
  refine grows_pushNew fun m n hm => ?_
  rw [hm.nameText hname]
  have hempty := Table.alike_empty ρ
  exact hm.alloc (.cls ⟨rfl, .none, hempty, hempty, hempty, hempty, .none⟩) nofun nofun

theorem keeps_modifyClass (hvw : ρ.Alike v w) {g g' : Pool → Class → Class}
    (hg : ∀ {h k : Heap}, ρ.Holds h k → ∀ {c d : Class}, c.Alike ρ d →
      (g h.pool c).Alike ρ (g' k.pool d)) :
    ρ.Keeps (modifyClass v g) (modifyClass w g') := by
  refine does_get fun m n hm => ?_
  cases hvw with
  | ref hrs =>
    dsimp only
    rw [hm.heap.isClass hrs]
    split
    · refine keeps_set (hm.update hrs ?_ ?_ ?_)
      · intro o o' _ _ hoo
        have hsame := hoo
        cases hoo with
        | cls hcd => exact .cls (hg hm.heap hcd)
        | _ => exact hsame
      all_goals
        intro o _
        cases o with
        | cls c => exact Or.inr ⟨rfl, rfl⟩
        | _ => exact Or.inl rfl
    · exact keeps_breach _
  | _ => exact keeps_breach _

theorem Mirrors.methodKind (hm : ρ.Mirrors m n) (hvw : ρ.Alike v w) :
    m.methodKind v = n.methodKind w := by
  have hobject := hm.heap.object? hvw
  unfold Machine.methodKind
  generalize m.heap.object? v = o? at hobject
  generalize n.heap.object? w = o'? at hobject
  cases hobject with
  | none => rfl
  | some ho =>
    cases ho with
    | closure _ hproto _ =>
      dsimp only
      generalize Closure.proto _ = p at hproto
      generalize Closure.proto _ = q at hproto
      cases hproto
      rfl
    | _ => rfl

theorem Holds.withMethod (hh : ρ.Holds h k) (hcd : c.Alike ρ d) (hname : ρ.Alike name name')
    (hvw : ρ.Alike v w) :
    Class.Alike ρ { c with methods := c.methods.set h.pool name v }
      { d with methods := d.methods.set k.pool name' w } :=
  { hcd with methods := hcd.methods.set hh.leftPool hh.rightPool hname hvw }

theorem Holds.withStatic (hh : ρ.Holds h k) (hcd : c.Alike ρ d) (hname : ρ.Alike name name')
    (hvw : ρ.Alike v w) :
    Class.Alike ρ { c with statics := c.statics.set h.pool name v }
      { d with statics := d.statics.set k.pool name' w } :=
  { hcd with statics := hcd.statics.set hh.leftPool hh.rightPool hname hvw }

theorem keeps_makeMethod (hname : ρ.Alike name name') :
    ρ.Keeps (makeMethod name) (makeMethod name') := by
  refine keeps_pop.then fun method method' hmethod => does_get fun m n hm => ?_
  rw [hm.methodKind hmethod]
  refine (keeps_peek 0).then fun cls cls' hcls => keeps_modifyClass hcls fun hh c d hcd => ?_
  cases n.methodKind method' with
  | initializer => exact { hcd with constructor? := .some hmethod }
  | static =>
    have hmethods := hcd.staticMethods.set hh.leftPool hh.rightPool hname hmethod
    exact { hcd with staticMethods := hmethods }
  | _ => exact hh.withMethod hcd hname hmethod

theorem keeps_defineProperty (hname : ρ.Alike name name') (isStatic : Bool) :
    ρ.Keeps (defineProperty name isStatic) (defineProperty name' isStatic) := by
  refine keeps_pop.then fun v w hvw => ?_
  refine (keeps_peek 0).then fun cls cls' hcls => keeps_modifyClass hcls fun hh c d hcd => ?_
  cases isStatic with
  | true => exact hh.withStatic hcd hname hvw
  | false => exact { hcd with defaults := hcd.defaults.set hh.leftPool hh.rightPool hname hvw }

theorem Holds.inheriting (hh : ρ.Holds h k) (hcd : c.Alike ρ d) (hvw : ρ.Alike v w)
    {parent parent' : Class} (hparent : parent.Alike ρ parent') :
    Class.Alike ρ (c.inheriting h.pool v parent) (d.inheriting k.pool w parent') where
  name := hcd.name
  superclass := by
    cases hvw with
    | ref hrs => exact .some hrs
    | _ => exact .none
  methods := hcd.methods.addAll hh.leftPool hh.rightPool hparent.methods
  staticMethods := hcd.staticMethods
  defaults := hcd.defaults.addAll hh.leftPool hh.rightPool hparent.defaults
  statics := hcd.statics
  constructor? := by
    have hown := hcd.constructor?
    show ρ.Alike (c.constructor? <|> parent.constructor?) (d.constructor? <|> parent'.constructor?)
    generalize c.constructor? = v? at hown
    generalize d.constructor? = w? at hown
    cases hown with
    | none => exact hparent.constructor?
    | some hctor => exact .some hctor

theorem grows_inherit : ρ.Grows inherit inherit := by
  refine (keeps_peek 1).then fun v w hvw => does_get fun m n hm => ?_
  have hclass := hm.classOf? hvw
  rw [hm.typeName hvw]
  generalize m.classOf? v = c? at hclass
  generalize n.classOf? w = d? at hclass
  cases hclass with
  | none => exact grows_misuse _
  | some hparent =>
    refine keeps_pop.then fun subclass subclass' hsubclass => Keeps.lift ?_
    exact keeps_modifyClass hsubclass fun hh c d hcd => hh.inheriting hcd hvw hparent

/-! Properties. -/

theorem grows_bindTop (hreceiver : ρ.Alike receiver receiver') (hvw : ρ.Alike v w) :
    ρ.Grows (bindTop receiver v) (bindTop receiver' w) :=
  Grows.then (does_modifyGet fun _ _ hm => hm.alloc (.bound hreceiver hvw) nofun nofun)
    fun _ _ _ _ hmade => (keeps_setTop hmade).lift

theorem grows_getSuper (hname : ρ.Alike name name') :
    ρ.Grows (getSuper name) (getSuper name') := by
  refine keeps_popClass.then fun r s hrs => ?_
  refine (keeps_peek 0).then fun receiver receiver' hreceiver => ?_
  refine (keeps_findMethod hrs hname).then fun e? e'? he => ?_
  cases he with
  | some he => exact grows_bindTop hreceiver he.value
  | none =>
    refine does_get fun m n hm => ?_
    rw [hm.heap.className hrs, hm.nameText hname]
    exact grows_misuse _

variable [Course R]

theorem does_showField (hhost : host.Uniform R) (hreceiver : ρ.Alike receiver receiver')
    (he : ρ.Alike e e') : ρ.Does R (showField host receiver e) (showField host receiver' e') := by
  unfold showField
  rw [he.kind]
  cases e'.kind with
  | value => exact (keeps_setTop he.value).lift
  | getter =>
    refine (keeps_calleeSlot 0).then fun base base' hbase => ?_
    obtain rfl : base = base' := hbase
    exact (keeps_setSlot base hreceiver).then fun _ _ _ => does_callValue hhost he.value 0

theorem does_showMethod (hhost : host.Uniform R) (hreceiver : ρ.Alike receiver receiver')
    (he : ρ.Alike e e') :
    ρ.Does R (showMethod host receiver e) (showMethod host receiver' e') := by
  have hshown := does_showField hhost hreceiver he
  unfold showMethod
  rw [he.kind]
  cases e'.kind with
  | value => exact (grows_bindTop hreceiver he.value).lift
  | getter => exact hshown

theorem does_getOnInstance (hhost : host.Uniform R) (hreceiver : ρ.Alike receiver receiver')
    (hrs : ρ.pairs r s) (hname : ρ.Alike name name') (fromSelf : Bool) :
    ρ.Does R (getOnInstance host receiver r name fromSelf)
      (getOnInstance host receiver' s name' fromSelf) := by
  refine does_get fun m n hm => ?_
  have hfield := hm.fieldEntry? hreceiver hname
  rw [hm.heap.isPrivate hname, hm.nameText hname, hm.heap.className hrs]
  split
  · exact (grows_misuse _).lift
  · generalize m.fieldEntry? receiver name = e? at hfield
    generalize n.fieldEntry? receiver' name' = e'? at hfield
    cases hfield with
    | some he => exact does_showField hhost hreceiver he
    | none =>
      refine (keeps_findMethod hrs hname).then fun e? e'? he => ?_
      cases he with
      | some he => exact does_showMethod hhost hreceiver he
      | none => exact (grows_misuse _).lift

theorem does_getOnClass (hhost : host.Uniform R) (hreceiver : ρ.Alike receiver receiver')
    (hcd : ρ.Alike c d) (hname : ρ.Alike name name') (fromSelf : Bool) :
    ρ.Does R (getOnClass host receiver c name fromSelf)
      (getOnClass host receiver' d name' fromSelf) := by
  refine does_get fun m n hm => ?_
  have hstatic := hm.heap.static? hcd hname
  rw [hm.heap.isPrivate hname, hm.nameText hname, hcd.name]
  generalize c.static? m.heap.pool name = e? at hstatic
  generalize d.static? n.heap.pool name' = e'? at hstatic
  cases hstatic with
  | none => exact (grows_misuse _).lift
  | some he =>
    dsimp only
    split
    · exact (grows_misuse _).lift
    · exact does_showField hhost hreceiver he

theorem does_getOnPrimitive (hhost : host.Uniform R) (hreceiver : ρ.Alike receiver receiver')
    (hname : ρ.Alike name name') :
    ρ.Does R (getOnPrimitive host receiver name) (getOnPrimitive host receiver' name') := by
  refine does_get fun m n hm => ?_
  rw [hm.heap.primitive? hreceiver, hm.nameText hname, hm.render hreceiver, hm.typeName hreceiver]
  cases n.heap.primitive? receiver' with
  | none => exact (grows_misuse _).lift
  | some p =>
    refine (keeps_primitiveMethod hreceiver hname).then fun e? e'? he => ?_
    cases he with
    | some he => exact does_showMethod hhost hreceiver he
    | none => exact (grows_misuse _).lift

theorem does_getProperty (hhost : host.Uniform R) (hname : ρ.Alike name name') (fromSelf : Bool) :
    ρ.Does R (getProperty host name fromSelf) (getProperty host name' fromSelf) := by
  refine (keeps_peek 0).then fun receiver receiver' hreceiver => does_get fun m n hm => ?_
  have hinstance := hm.heap.instanceClass? hreceiver
  have hclass := hm.classOf? hreceiver
  have hentry := hm.dictEntry? hreceiver hname
  generalize m.heap.instanceClass? receiver = r? at hinstance
  generalize n.heap.instanceClass? receiver' = s? at hinstance
  cases hinstance with
  | some hrs => exact does_getOnInstance hhost hreceiver hrs hname fromSelf
  | none =>
    generalize m.classOf? receiver = c? at hclass
    generalize n.classOf? receiver' = d? at hclass
    cases hclass with
    | some hcd => exact does_getOnClass hhost hreceiver hcd hname fromSelf
    | none =>
      generalize m.dictEntry? receiver name = e? at hentry
      generalize n.dictEntry? receiver' name' = e'? at hentry
      cases hentry with
      | some he => exact does_showField hhost hreceiver he
      | none => exact does_getOnPrimitive hhost hreceiver hname

/-! Writing. -/

omit [Course R]

theorem Holds.insertIntoDict (hh : ρ.Holds h k) {d d' : Dict} (hkeys : ρ.Alike d.keys d'.keys)
    (htable : ρ.Alike d.table d'.table) (hname : ρ.Alike name name') (hvw : ρ.Alike v w) :
    ρ.Alike (Object.dict (d.insert h.pool name v)) (.dict (d'.insert k.pool name' w)) := by
  obtain ⟨hnew, hinserted⟩ := htable.insert hh.leftPool hh.rightPool hname hvw .value
  unfold Dict.insert
  generalize d.table.insert h.pool name v = p at hnew hinserted
  generalize d'.table.insert k.pool name' w = q at hnew hinserted
  obtain ⟨b, t⟩ := p
  obtain ⟨b', u⟩ := q
  obtain rfl : b = b' := hnew
  cases b with
  | true => exact .dict (alike_push hkeys hname) hinserted
  | false => exact .dict hkeys hinserted

theorem grows_insertIntoDict (hrs : ρ.pairs r s) (hname : ρ.Alike name name')
    (hvw : ρ.Alike v w) : ρ.Grows (insertIntoDict r name v) (insertIntoDict s name' w) := by
  unfold insertIntoDict
  rw [Value.Alike.isText hname, Value.Alike.isNumber hname, Value.Alike.isBool hname]
  split
  · refine does_get fun m n hm => ?_
    have hobject := hm.heap.get? hrs
    generalize m.heap.get? r = o? at hobject
    generalize n.heap.get? s = o'? at hobject
    cases hobject with
    | none => exact (keeps_breach _).lift
    | some ho =>
      cases ho with
      | dict _ _ =>
        apply Keeps.lift
        refine keeps_set (hm.update hrs ?_ ?_ ?_)
        · intro o o' _ _ hoo
          have hsame := hoo
          cases hoo with
          | dict hkeys htable => exact hm.heap.insertIntoDict hkeys htable hname hvw
          | _ => exact hsame
        all_goals
          intro o _
          cases o with
          | dict d => exact Or.inr ⟨rfl, rfl⟩
          | _ => exact Or.inl rfl
      | _ => exact (keeps_breach _).lift
  · exact grows_misuse _

theorem keeps_setOnClass {cls cls' : Value} (hcls : ρ.Alike cls cls') (hname : ρ.Alike name name')
    (hvw : ρ.Alike v w) : ρ.Keeps (setOnClass cls name v) (setOnClass cls' name' w) := by
  refine does_get fun m n hm => ?_
  have hcallable : (m.heap.object? v).any Object.isCallable =
      (n.heap.object? w).any Object.isCallable := by
    have hobject := hm.heap.object? hvw
    generalize m.heap.object? v = o? at hobject
    generalize n.heap.object? w = o'? at hobject
    cases hobject with
    | none => rfl
    | some ho => cases ho <;> rfl
  rw [hcallable]
  refine keeps_modifyClass hcls fun hh c d hcd => ?_
  split
  · exact hh.withMethod hcd hname hvw
  · exact hh.withStatic hcd hname hvw

theorem grows_setProperty (hname : ρ.Alike name name') :
    ρ.Grows (setProperty name) (setProperty name') := by
  refine keeps_pop.then fun v w hvw => keeps_pop.then fun target target' htarget => ?_
  have hpush {σ : Renaming} (hle : ρ ≤ σ) : σ.Grows (push v) (push w) :=
    (keeps_push (hvw.mono hle)).lift
  refine does_get fun m n hm => ?_
  have hcarried (p : Primitive) : ρ.Grows
      (do
        setOnClass (.ref (m.builtins.primitive p)) name v
        push v)
      (do
        setOnClass (.ref (n.builtins.primitive p)) name' w
        push w) :=
    (keeps_setOnClass (.ref (hm.state.primitives p)) hname hvw).then fun _ _ _ => hpush (le_refl ρ)
  have hrefused : ρ.Grows
      (do
        misuse (.cannotCarry (n.typeName target'))
        push v)
      (do
        misuse (.cannotCarry (n.typeName target'))
        push w) := (grows_misuse (α := Unit) _).then fun _ _ _ hle _ => hpush hle
  have hfield := hm.setField htarget hname hvw
  have hclass := keeps_setOnClass htarget hname hvw
  rw [hm.typeName htarget, hm.heap.primitive? htarget]
  cases htarget with
  | @ref r s hrs =>
    have hobject := hm.heap.get? hrs
    generalize n.heap.primitive? (.ref s) = p?
    dsimp only
    generalize m.heap.get? r = o? at hobject
    generalize n.heap.get? s = o'? at hobject
    cases hobject with
    | none =>
      cases p? with
      | some p => exact hcarried p
      | none => exact hrefused
    | some ho =>
      cases ho with
      | inst _ _ => exact (keeps_set hfield).then fun _ _ _ => hpush (le_refl ρ)
      | dict _ _ =>
        exact (grows_insertIntoDict hrs hname hvw).then fun σ _ _ hle _ => hpush hle
      | cls _ => exact hclass.then fun _ _ _ => hpush (le_refl ρ)
      | _ =>
        cases p? with
        | some p => exact hcarried p
        | none => exact hrefused
  | _ => exact grows_misuse _

theorem grows_testInstance : ρ.Grows testInstance testInstance := by
  refine keeps_pop.then fun cls cls' hcls => keeps_pop.then fun v w hvw => ?_
  refine does_get fun m n hm => ?_
  cases hcls with
  | ref hrs =>
    dsimp only
    rw [hm.heap.isClass hrs]
    split
    · refine (keeps_settle (hm.heap.isInstanceOf hrs hvw)).then fun a? b? hab => ?_
      cases hab <;> exact (keeps_push (.bool _)).lift
    · exact grows_misuse _
  | _ => exact grows_misuse _

end Renaming

end ScriptMachine
