import ScriptMachine.Proofs.Heap.Growth
import ScriptMachine.Proofs.Table.Contents

/-!
Heaps whose tables are in order. Tables depend on the texts under their keys, and texts that are
held stay as they are, so a heap stays in order as long as what is stored into it is in order.
-/

namespace ScriptMachine

/-- The tables of an object. -/
def Object.tables : Object → List Table
  | .cls c => [c.methods, c.staticMethods, c.defaults, c.statics]
  | .inst i => [i.fields]
  | .dict d => [d.table]
  | .switch s => [s.cases]
  | _ => []

theorem Object.inOrder_cls {p : Pool} {c : Class} (hmethods : c.methods.InOrder p)
    (hstaticMethods : c.staticMethods.InOrder p) (hdefaults : c.defaults.InOrder p)
    (hstatics : c.statics.InOrder p) : ∀ t ∈ (Object.cls c).tables, t.InOrder p := by
  simp only [Object.tables, List.forall_mem_cons]
  exact ⟨hmethods, hstaticMethods, hdefaults, hstatics, List.forall_mem_nil _⟩

theorem Table.InOrder.intern {p : Pool} {t : Table} (h : t.InOrder p) (hp : p.WellFormed)
    (text : String) : t.InOrder (p.intern text).2 :=
  h.keep fun _ _ _ hx => hp.get?_intern text hx

namespace Heap

/-- Every table of the heap is in order. -/
def InOrder (h : Heap) : Prop := ∀ r o, h.get? r = some o → ∀ t ∈ o.tables, t.InOrder h.pool

variable {h : Heap} {o : Object}

theorem InOrder.alloc (hh : h.InOrder) (hwf : h.WellFormed) (ho : ∀ t ∈ o.tables, t.InOrder h.pool) :
    (h.alloc o).2.InOrder := by
  intro r o' ho' t ht
  rw [get?_alloc hwf] at ho'
  split at ho'
  · obtain rfl := Option.some.inj ho'
    exact ho t ht
  · exact hh r o' ho' t ht

theorem InOrder.intern (hh : h.InOrder) (hwf : h.WellFormed) (text : String) :
    (h.intern text).2.InOrder :=
  fun r o ho t ht => (hh r o ho t ht).intern hwf.pool text

theorem InOrder.update (hh : h.InOrder) {r : Ref} {f : Object → Object}
    (hf : ∀ o, h.get? r = some o → ∀ t ∈ (f o).tables, t.InOrder h.pool) :
    (h.update r f).InOrder := by
  intro s o ho t ht
  rw [pool_update]
  rw [get?_update] at ho
  by_cases hrs : r = s
  · rw [if_pos hrs, ← hrs] at ho
    obtain ⟨old, hold, rfl⟩ := Option.map_eq_some_iff.1 ho
    exact hf old hold t ht
  · rw [if_neg hrs] at ho
    exact hh s o ho t ht

end Heap

end ScriptMachine
