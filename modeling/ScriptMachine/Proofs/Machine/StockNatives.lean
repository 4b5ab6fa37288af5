import ScriptMachine.Host
import ScriptMachine.Proofs.Machine.Cover.Request

/-!
What the stock natives do. They are orderly, as long as they do not call the machine that runs them.
-/

namespace ScriptMachine

namespace Machine

/-- What a native did and gave. -/
def Behaves (m : Machine) (p : Option Value × Machine) : Prop :=
  m.Served p.2 ∧ ∀ v, p.1 = some v → p.2.heap.OccupiedValue v

variable {m : Machine}

/-- A world in which all that a sound machine holds is known. -/
theorem Sound.covers (h : m.Sound) {passed : List Ref}
    (hpassed : ∀ r ∈ passed, m.heap.Occupied r) :
    (World.start ⟨m, .initial m, passed⟩).Covers m :=
  World.covers_start h (live_initial h) hpassed

theorem Sound.occupiedValue (h : m.Sound) {v : Value} (hv : m.Rooted v) :
    m.heap.OccupiedValue v :=
  fun r hr => h.occupied r (held_iff.2 (Or.inl (hv r hr)))

/-- What is handed out is in an occupied slot. -/
theorem occupiedValue_of_gives {w : World} {p : Value × Machine} (h : w.Gives p) :
    p.2.heap.OccupiedValue p.1 := by
  obtain ⟨u, -, hu, hknows⟩ := h
  exact fun r hr => hu.heap.occupied (hknows r hr)

theorem behaves_give {v : Value} (hv : m.heap.OccupiedValue v) : m.Behaves (some v, m) := by
  refine ⟨.done, fun u hu => ?_⟩
  rwa [← Option.some.inj hu]

theorem behaves_nothing {m' : Machine} (h : m.Served m') : m.Behaves (none, m') :=
  ⟨h, nofun⟩

/-- A native that makes a request and gives what it handed out. -/
theorem behaves_request {q : Request} {v : Value} (hproper : q.Proper m)
    (hv : (q.perform m).heap.OccupiedValue v) : m.Behaves (some v, q.perform m) := by
  refine ⟨.request .done q hproper, fun u hu => ?_⟩
  rwa [← Option.some.inj hu]

theorem Sound.served_raise (h : m.Sound) (kind : ExceptionKind) (message : String) :
    m.Served (raise kind message m).2 := by
  have hmake : m.Served (m.makeException kind message).2 :=
    .request .done (.makeException kind message) ⟨trivial, nofun⟩
  have hnothing : ∀ r ∈ ([] : List Ref), m.heap.Occupied r := nofun
  have hgives := (h.covers hnothing).makeException kind message
  exact .request hmake (.raise (m.makeException kind message).1)
    ⟨trivial, occupiedValue_of_gives hgives⟩

theorem Sound.behaves_raise (h : m.Sound) (kind : ExceptionKind) (message : String) :
    m.Behaves (raise kind message m) := ⟨h.served_raise kind message, nofun⟩

theorem Sound.occupiedValue_global (h : m.Sound) {name : String} {v : Value}
    (hv : m.global? name = some v) : m.heap.OccupiedValue v := by
  intro r hr
  obtain ⟨e, he, rfl⟩ := Option.map_eq_some_iff.1 hv
  have hmem := Table.mem_entries_of_text he
  exact h.occupied r (.root (.global ⟨e, hmem, Or.inr (Value.mem_refs_iff.1 hr)⟩))

end Machine

namespace Host

open Machine

theorem get_bind_native {α : Type} (f : Machine → StateM Machine α) (m : Machine) :
    (get >>= f) m = f m m := rfl

/-- The values that a stock native can see: what it was passed, and the globals. -/
inductive Visible (receiver : Value) (args : Array Value) (m : Machine) : Value → Prop where
  | argument (i : Nat) : Visible receiver args m (argument args i)
  | receiver : Visible receiver args m receiver
  | global {name : String} {v : Value} (hv : m.global? name = some v) : Visible receiver args m v
  | number (x : Float) : Visible receiver args m (.number x)
  | nil : Visible receiver args m .nil

/-- What a stock native can do. -/
inductive Performed (reentry : Reentry) (receiver : Value) (args : Array Value) (m : Machine) :
    Option Value × Machine → Prop where
  | gives {v : Value} (hv : Visible receiver args m v) :
      Performed reentry receiver args m (some v, m)
  | gathers : Performed reentry receiver args m
      (some (m.alloc (.array args)).1, (m.alloc (.array args)).2)
  | interns (text : String) : Performed reentry receiver args m
      (some (m.intern text).1, (m.intern text).2)
  | raises (kind : ExceptionKind) (message : String) :
      Performed reentry receiver args m (raise kind message m)
  | raisesAndCollects (kind : ExceptionKind) (message : String) :
      Performed reentry receiver args m (none, (raise kind message m).2.collect.2)
  | throws (i : Nat) : Performed reentry receiver args m (raiseValue (argument args i) m)
  | nothing : Performed reentry receiver args m (none, m)
  | defines (name : String) (i : Nat) : Performed reentry receiver args m
      (some (argument args i), m.defineGlobal name (argument args i))
  | collects (x : Float) : Performed reentry receiver args m (some (.number x), m.collect.2)
  | calls (callee : Value) (passed : Array Value) : Performed reentry receiver args m
      (answer (reentry.call callee passed m).1 (reentry.call callee passed m).2)
  | runs (proto : Prototype) : Performed reentry receiver args m
      (answer (reentry.run proto m).1 (reentry.run proto m).2)

theorem performed_stock (reentry : Reentry) (name : String) (receiver : Value) (args : Array Value)
    (m : Machine) : Performed reentry receiver args m (stock reentry name receiver args m) := by
  unfold stock
  split
  · exact .gives (.argument 0)
  · exact .gives .receiver
  · exact .gathers
  · exact .interns _
  · exact .raises _ _
  · exact .raisesAndCollects (.ofName (argumentText m args 0)) (argumentText m args 1)
  · exact .raises _ _
  · exact .throws 0
  · exact .nothing
  · rw [get_bind_native]
    cases htarget : m.global? "target" with
    | some v => exact .gives (.global htarget)
    | none => exact .raises _ _
  · rw [get_bind_native]
    cases hglobal : m.global? (argumentText m args 0) with
    | some v => exact .gives (.global hglobal)
    | none => exact .gives .nil
  · exact .defines _ 1
  · exact .gives (.number _)
  · exact .collects _
  · exact .calls _ _
  · exact .runs _
  · exact .gives .nil

theorem occupiedValue_visible {m : Machine} (h : m.Sound) {receiver v : Value}
    {args : Array Value} (hreceiver : m.Rooted receiver) (hargs : ∀ v ∈ args, m.Rooted v)
    (hv : Visible receiver args m v) : m.heap.OccupiedValue v := by
  have hnil : m.heap.OccupiedValue .nil := fun _ hr => absurd hr List.not_mem_nil
  cases hv with
  | argument i =>
    exact ArraySlots.getD_of_forall (fun v hv => h.occupiedValue (hargs v hv)) hnil i
  | receiver => exact h.occupiedValue hreceiver
  | global hv => exact h.occupiedValue_global hv
  | number => nofun
  | nil => exact hnil

theorem behaves_answer {m : Machine} (h : m.Sound) (v : Verdict) : m.Behaves (answer v m) := by
  cases v with
  | failed f => exact h.behaves_raise _ _
  | _ => exact behaves_give nofun

/-- The array of the arguments. -/
theorem behaves_arguments {m : Machine} (h : m.Sound) {args : Array Value}
    (hargs : ∀ v ∈ args, m.Rooted v) :
    m.Behaves (some (m.alloc (.array args)).1, (m.alloc (.array args)).2) := by
  have hpassed : ∀ r ∈ (Object.array args).refs, m.heap.Occupied r := by
    intro r hr
    obtain ⟨v, hv, hmem⟩ := List.mem_flatMap.1 hr
    exact h.occupiedValue (hargs v (Array.mem_toList_iff.1 hv)) r hmem
  have hgives := (h.covers hpassed).alloc (o := .array args)
    (fun r hr => Or.inr (Or.inl hr)) nofun
  exact behaves_request (q := .alloc (.array args)) ⟨trivial, hpassed⟩
    (occupiedValue_of_gives hgives)

theorem behaves_intern {m : Machine} (h : m.Sound) (text : String) :
    m.Behaves (some (m.intern text).1, (m.intern text).2) := by
  have hnothing : ∀ r ∈ ([] : List Ref), m.heap.Occupied r := nofun
  have hgives := (h.covers hnothing).intern text
  exact behaves_request (q := .intern text) ⟨trivial, nofun⟩ (occupiedValue_of_gives hgives)

theorem behaves_define {m : Machine} (h : m.Sound) (name : String) {v : Value}
    (hv : m.heap.OccupiedValue v) : m.Behaves (some v, m.defineGlobal name v) := by
  refine behaves_request (q := .defineGlobal name v) ⟨trivial, hv⟩ fun r hr => ?_
  exact (Heap.occupied_intern h.heap name r).2 (Or.inr (hv r hr))

theorem orderly_stock : (stock .closed).Orderly := by
  intro name receiver args m hsound hreceiver hargs
  have hvisible {v : Value} (hv : Visible receiver args m v) : m.heap.OccupiedValue v :=
    occupiedValue_visible hsound hreceiver hargs hv
  show m.Behaves (stock .closed name receiver args m)
  have hperformed := performed_stock .closed name receiver args m
  generalize stock .closed name receiver args m = outcome at hperformed ⊢
  cases hperformed with
  | gives hv => exact behaves_give (hvisible hv)
  | gathers => exact behaves_arguments hsound hargs
  | interns text => exact behaves_intern hsound text
  | raises kind message => exact hsound.behaves_raise kind message
  | raisesAndCollects kind message =>
    exact behaves_nothing (.collect (hsound.served_raise kind message))
  | throws i => exact behaves_nothing (.request .done (.raise _) ⟨trivial, hvisible (.argument i)⟩)
  | nothing => exact behaves_nothing .done
  | defines name i => exact behaves_define hsound name (hvisible (.argument i))
  | collects x => exact ⟨.collect .done, fun v hv => by rw [← Option.some.inj hv]; nofun⟩
  | calls | runs => exact behaves_answer hsound _

end Host

end ScriptMachine
