import ScriptMachine.Proofs.Machine.Facets
import ScriptMachine.Proofs.Table.InsertionOrder

/-!
Storing a property. The value goes to the object behind the target, or to the class of a primitive
value, and into one of the tables there. That object and all others keep what they have for every
other name.
-/

namespace ScriptMachine

namespace Object

/-- The object after a property was stored in it. -/
def taking (pool : Pool) (name value : Value) (callable : Bool) : Object → Object
  | inst i => inst { i with fields := i.fields.set pool name value }
  | dict d => dict (d.insert pool name value)
  | cls c =>
    cls (if callable then { c with methods := c.methods.set pool name value }
      else { c with statics := c.statics.set pool name value })
  | o => o

variable {p : Pool} {name other value : Value} {callable : Bool}

/-- Under other names an object shows what it did before. -/
theorem facet_taking (hp : p.WellFormed) (hname : p.Holds name)
    (hother : p.sameKey name other = false) {o : Object} (ho : ∀ t ∈ o.tables, t.InOrder p) :
    (o.taking p name value callable).facet p other = o.facet p other := by
  have hkept {t : Table} (ht : t.InOrder p) :
      Table.entry? (t.set p name value) p other = t.entry? p other :=
    ht.entry?_set_of_ne hp hname hother
  cases o with
  | inst i =>
    have hfields := hkept (ho i.fields List.mem_cons_self)
    simp only [taking, facet, hfields]
  | dict d =>
    have htable := hkept (ho d.table List.mem_cons_self)
    simp only [taking, facet, Dict.table_insert, htable]
  | cls c =>
    simp only [tables, List.forall_mem_cons] at ho
    obtain ⟨hmethods, -, -, hstatics, -⟩ := ho
    cases callable with
    | true => simp only [taking, facet, if_true, Class.static?, hkept hmethods]
    | false => simp [taking, facet, Class.static?, hkept hstatics]
  | _ => rfl

end Object

/-- A change to what is in a slot depends on what it makes of that alone. -/
theorem Arena.modify_congr {α : Type} {a : Arena α} {i : Nat} {f g : α → α}
    (hfg : ∀ x, a.get? i = some x → f x = g x) : a.modify i f = a.modify i g := by
  unfold Arena.modify Arena.modifyCell
  congr 1
  apply Array.ext_getElem?
  intro j
  rw [Array.getElem?_modify, Array.getElem?_modify]
  by_cases hij : i = j
  · subst hij
    rw [if_pos rfl, if_pos rfl]
    cases hslot : a.slots[i]? with
    | none => rfl
    | some cell =>
      cases cell with
      | none => rfl
      | some c =>
        have hc : a.get? i = some c.value := by simp [Arena.get?, Arena.cell?, hslot]
        simp [hfg c.value hc]
  · rw [if_neg hij, if_neg hij]

theorem Heap.update_congr {h : Heap} {r : Ref} {o : Object} {f g : Object → Object}
    (hr : h.get? r = some o) (hfg : f o = g o) : h.update r f = h.update r g := by
  cases r with
  | text i => rfl
  | object i =>
    have hcells : h.objects.modify i f = h.objects.modify i g := by
      refine Arena.modify_congr fun x hx => ?_
      obtain rfl := Option.some.inj (hr.symm.trans hx)
      exact hfg
    simp only [Heap.update, hcells]

namespace Machine

variable {m q : Machine} {below : Array Value} {target name other v : Value} {r : Ref} {o : Object}

def isCallable (m : Machine) (v : Value) : Bool := (m.heap.object? v).any Object.isCallable

/-- The object in which the properties of a value are stored. -/
inductive StoresIn (m : Machine) : Value → Ref → Object → Prop where
  | inst {r : Ref} {i : Instance} (hr : m.heap.get? r = some (.inst i)) :
      StoresIn m (.ref r) r (.inst i)
  | dict {r : Ref} {d : Dict} (hr : m.heap.get? r = some (.dict d)) :
      StoresIn m (.ref r) r (.dict d)
  | cls {r : Ref} {c : Class} (hr : m.heap.get? r = some (.cls c)) : StoresIn m (.ref r) r (.cls c)
  | primitive {r : Ref} {p : Primitive} {c : Class} (hp : m.heap.primitive? (.ref r) = some p)
      (hdict : ∀ d, m.heap.get? r ≠ some (.dict d))
      (hc : m.heap.get? (m.builtins.primitive p) = some (.cls c)) :
      StoresIn m (.ref r) (m.builtins.primitive p) (.cls c)

theorem StoresIn.withStack (hstores : m.StoresIn target r o) (stack : Array Value) :
    ({ m with stack } : Machine).StoresIn target r o := by
  cases hstores with
  | inst hr => exact .inst hr
  | dict hr => exact .dict hr
  | cls hr => exact .cls hr
  | primitive hp hfree hc => exact .primitive hp hfree hc

/-- The machine after a property was stored in an object. -/
def written (m : Machine) (r : Ref) (name v : Value) : Machine :=
  m.update r (Object.taking m.heap.pool name v (m.isCallable v))

theorem pop_pushed (hstack : m.stack = below.push v) :
    pop m = .ok v { m with stack := below } := by
  unfold pop
  rw [get_bind, hstack, Array.back?_push]
  dsimp only
  rw [set_bind, Array.pop_push]
  rfl

/-- A field is stored in the instance. -/
theorem setField_eq {i : Instance} (hr : m.heap.get? r = some (.inst i)) :
    m.setField (.ref r) name v = m.written r name v := by
  exact congrArg (fun heap => ({ m with heap } : Machine)) (Heap.update_congr hr rfl)

theorem insertIntoDict_ok {d : Dict} (hr : m.heap.get? r = some (.dict d))
    (hkey : (name.isText || name.isNumber || name.isBool) = true) :
    insertIntoDict r name v m = .ok () (m.written r name v) := by
  unfold insertIntoDict
  rw [if_pos hkey, get_bind, hr]
  exact congrArg (fun heap => EStateM.Result.ok () ({ m with heap } : Machine))
    (Heap.update_congr hr rfl)

/-- A change to a class is one to what is behind the reference. -/
theorem modifyClass_ok {c : Class} {g : Pool → Class → Class} {f : Object → Object}
    (hr : m.heap.get? r = some (.cls c)) (hf : f (.cls c) = .cls (g m.heap.pool c)) :
    modifyClass (.ref r) g m = .ok () (m.update r f) := by
  have hclass : m.heap.isClass r = true := by simp [Heap.isClass, hr, Object.isClass]
  unfold modifyClass
  rw [get_bind]
  dsimp only
  rw [if_pos hclass]
  exact congrArg (fun heap => EStateM.Result.ok () ({ m with heap } : Machine))
    (Heap.update_congr hr hf.symm)

theorem setOnClass_ok {c : Class} (hr : m.heap.get? r = some (.cls c)) :
    setOnClass (.ref r) name v m = .ok () (m.written r name v) := by
  unfold setOnClass
  rw [get_bind]
  exact modifyClass_ok hr rfl

theorem setOnClass_error (hr : m.heap.isClass r = false) :
    setOnClass (.ref r) name v m = .error (.fault (.internal .classOperand)) m := by
  unfold setOnClass modifyClass
  rw [get_bind, get_bind]
  dsimp only
  rw [hr]
  rfl

/-- A write comes to the object that takes it. A dict takes texts, numbers and truth values. -/
theorem setProperty_ok (hstack : m.stack = (below.push target).push v)
    (hstores : m.StoresIn target r o)
    (hkey : ∀ d, o = .dict d → (name.isText || name.isNumber || name.isBool) = true) :
    setProperty name m = .ok () { m.written r name v with stack := below.push v } := by
  let rest : Machine := { m with stack := below }
  have htarget : pop { m with stack := below.push target } = .ok target rest := pop_pushed rfl
  unfold setProperty
  rw [bind_of_ok (pop_pushed hstack), bind_of_ok htarget, get_bind]
  cases hstores with
  | @inst r i hr =>
    have hget : rest.heap.get? r = some (.inst i) := hr
    dsimp only
    rw [hget]
    dsimp only
    rw [set_bind, setField_eq hget]
    rfl
  | @dict r d hr =>
    have hget : rest.heap.get? r = some (.dict d) := hr
    dsimp only
    rw [hget]
    dsimp only
    rw [bind_of_ok (insertIntoDict_ok hget (hkey d rfl))]
    rfl
  | @cls r c hr =>
    have hget : rest.heap.get? r = some (.cls c) := hr
    dsimp only
    rw [hget]
    dsimp only
    rw [bind_of_ok (setOnClass_ok hget)]
    rfl
  | @primitive r p c hp hdict hc =>
    have hset : setOnClass (.ref (m.builtins.primitive p)) name v rest =
        .ok () (rest.written (m.builtins.primitive p) name v) :=
      setOnClass_ok (m := rest) hc
    have hprimitive : rest.heap.primitive? (.ref r) = some p := hp
    have hfree := Heap.get?_ne_of_primitive? hp
    dsimp only
    rw [hprimitive]
    have hget : rest.heap.get? r = m.heap.get? r := rfl
    dsimp only
    rw [hget]
    cases ho : m.heap.get? r with
    | none =>
      dsimp only
      rw [bind_of_ok hset]
      rfl
    | some o =>
      cases o with
      | inst i => exact absurd ho (hfree.1 i)
      | dict d => exact absurd ho (hdict d)
      | cls c => exact absurd ho (hfree.2 c)
      | _ =>
        dsimp only
        rw [bind_of_ok hset]
        rfl

/-- What a write needs, and what it comes to. -/
theorem setProperty_cases (hstack : m.stack = (below.push target).push v)
    (hset : setProperty name m = .ok () q) :
    ∃ r o, m.StoresIn target r o ∧ q = { m.written r name v with stack := below.push v } := by
  suffices hstores : ∃ r o, m.StoresIn target r o ∧
      ∀ d, o = .dict d → (name.isText || name.isNumber || name.isBool) = true by
    obtain ⟨r, o, hstores, hkey⟩ := hstores
    rw [setProperty_ok hstack hstores hkey] at hset
    cases hset
    exact ⟨r, o, hstores, rfl⟩
  have htarget : pop { m with stack := below.push target } = .ok target { m with stack := below } :=
    pop_pushed rfl
  unfold setProperty at hset
  rw [bind_of_ok (pop_pushed hstack), bind_of_ok htarget, get_bind] at hset
  split at hset
  · next r =>
    split at hset
    · next i hi => exact ⟨r, _, .inst hi, nofun⟩
    · next d hd =>
      refine ⟨r, _, .dict hd, fun _ _ => ?_⟩
      by_contra hkey
      unfold insertIntoDict at hset
      rw [if_neg hkey] at hset
      cases hset
    · next c hc => exact ⟨r, _, .cls hc, nofun⟩
    · next hinst hdict hcls =>
      split at hset
      · next p hp =>
        cases hclass : m.heap.isClass (m.builtins.primitive p) with
        | true =>
          obtain ⟨c, hc⟩ := isClass_iff.1 hclass
          exact ⟨_, _, .primitive hp hdict (Heap.class?_eq_some.1 hc), nofun⟩
        | false =>
          have hfail : setOnClass (.ref (m.builtins.primitive p)) name v { m with stack := below } =
              .error (.fault (.internal .classOperand)) { m with stack := below } :=
            setOnClass_error hclass
          dsimp only at hset
          rw [bind_of_error hfail] at hset
          cases hset
      · cases hset
  · cases hset

/-! Names after a write. -/

theorem get?_written (m : Machine) (r : Ref) (name v : Value) (s : Ref) :
    (m.written r name v).heap.get? s =
      if r = s then (m.heap.get? s).map (Object.taking m.heap.pool name v (m.isCallable v))
      else m.heap.get? s := Heap.get?_update r _ s

theorem StoresIn.get? (hstores : m.StoresIn target r o) : m.heap.get? r = some o := by
  cases hstores <;> assumption

theorem get?_written_self (hstores : m.StoresIn target r o) (name v : Value) :
    (m.written r name v).heap.get? r =
      some (o.taking m.heap.pool name v (m.isCallable v)) := by
  rw [get?_written, if_pos rfl, hstores.get?, Option.map_some]

/-- A write to what is named otherwise. -/
theorem facet?_written (hwf : m.heap.WellFormed) (hordered : m.heap.InOrder)
    (hname : m.heap.pool.Holds name) (hother : m.heap.pool.sameKey name other = false)
    (w : Value) : (m.written r name v).heap.facet? w other = m.heap.facet? w other := by
  cases w with
  | ref s =>
    have hpool : (m.written r name v).heap.pool = m.heap.pool := Heap.pool_update r _
    show ((m.written r name v).heap.get? s).map _ = (m.heap.get? s).map _
    rw [get?_written, hpool]
    split
    · cases ho : m.heap.get? s with
      | none => rfl
      | some o => exact congrArg some (Object.facet_taking hwf.pool hname hother (hordered s o ho))
    · rfl
  | _ => rfl

theorem property_written (hwf : m.heap.WellFormed) (hordered : m.heap.InOrder)
    (hname : m.heap.pool.Holds name) (hother : m.heap.pool.sameKey name other = false)
    (w : Value) : (m.written r name v).property w other = m.property w other := by
  have hbuiltins : (m.written r name v).builtins = m.builtins := rfl
  have hlimit : (m.written r name v).heap.chainLimit = m.heap.chainLimit :=
    Heap.chainLimit_update m.heap r _
  exact property_congr hbuiltins hlimit (facet?_written hwf hordered hname hother) w

theorem facet?_written_of_ne {w : Value} (hne : w ≠ .ref r) (other : Value) :
    (m.written r name v).heap.facet? w other = m.heap.facet? w other := by
  have hpool : (m.written r name v).heap.pool = m.heap.pool := Heap.pool_update r _
  cases w with
  | ref s =>
    show ((m.written r name v).heap.get? s).map _ = (m.heap.get? s).map _
    rw [get?_written, hpool, if_neg fun hrs => hne (congrArg Value.ref hrs.symm)]
  | _ => rfl

end Machine

end ScriptMachine
