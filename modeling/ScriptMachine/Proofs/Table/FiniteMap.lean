import ScriptMachine.Proofs.Table.Bindings

/-!
Tables as finite maps. A run over tables gives the answers that the same run over finite maps gives,
and in the end every table shows the bindings of its map: each to a search for its key, and all of
them once in a pass over the table.
-/

namespace ScriptMachine.Table

/-- A pool and the finite maps that stand for the tables over it. -/
structure Reference where
  pool : Pool := .empty
  maps : Nat → Bindings := fun _ => ∅

namespace Reference

def put (r : Reference) (i : Nat) (m : Bindings) : Reference :=
  { r with maps := fun j => if j = i then m else r.maps j }

/-- What an operation should answer and do. -/
def step (r : Reference) : Action → Option Bool × Reference
  | .set i key value kind =>
    (some (decide (r.pool.keyOf key ∉ r.maps i)),
      r.put i ((r.maps i).insert (r.pool.keyOf key) ⟨key, value, kind⟩))
  | .remove i key =>
    (some (decide (r.pool.keyOf key ∈ r.maps i)), r.put i ((r.maps i).erase (r.pool.keyOf key)))
  | .addAll i j => (none, r.put i (r.maps j ∪ r.maps i))
  | .extend i added =>
    (none, r.put i
      (added.foldl (fun m e => m.insert (r.pool.keyOf e.key) (binding e)) (r.maps i)))
  | .clear i => (none, r.put i ∅)
  | a => (none, { r with pool := a.onPool r.pool })

def run (r : Reference) : List Action → List (Option Bool) × Reference
  | [] => ([], r)
  | a :: rest =>
    let next := run (r.step a).2 rest
    ((r.step a).1 :: next.1, next.2)

/-- A store stands for a reference: one pool, and each table the bindings of its map. -/
structure Models (r : Reference) (s : Store) (used : List Value) : Prop where
  sound : s.Sound used
  nonNaN : ∀ key ∈ used, key.isNaN = false
  pool : r.pool = s.pool
  maps : ∀ i, Represents s.pool (s.tables i) (r.maps i)

theorem models_empty : Models {} {} [] where
  sound := Store.sound_empty
  nonNaN := by simp
  pool := rfl
  maps _ := rfl

variable {r : Reference} {s : Store} {used : List Value}

theorem Models.exact (h : Models r s used) (i : Nat) : Exact s.pool (s.tables i) where
  pool := h.sound.pool
  shape := h.sound.shape i
  hashed := h.sound.hashed i
  nonNaN e he := h.nonNaN e.key (h.sound.keys i e he)

/-- A class of a held key outlives a change of the pool that keeps the key. -/
theorem keyOf_onPool (a : Action) {p : Pool} (h : p.WellFormed) {key : Value}
    (hbefore : p.Holds key) (hafter : (a.onPool p).Holds key) :
    (a.onPool p).keyOf key = p.keyOf key := by
  rcases key with _ | _ | _ | (i | i)
  case ref.text =>
    obtain ⟨x, hx⟩ := hbefore i rfl
    obtain ⟨y, hy⟩ := hafter i rfl
    rw [Pool.keyOf_text hx, Pool.keyOf_text hy, a.get?_onPool h hx hy]
  all_goals rfl

theorem represents_onPool (a : Action) {p : Pool} (h : p.WellFormed) {t : Table} {m : Bindings}
    (hm : Represents p t m)
    (hkeys : ∀ e ∈ t.entries, p.Holds e.key ∧ (a.onPool p).Holds e.key) :
    Represents (a.onPool p) t m := by
  have hmap : t.entries.map (classed (a.onPool p)) = t.entries.map (classed p) := by
    apply List.map_congr_left
    intro e he
    rw [classed, keyOf_onPool a h (hkeys e he).1 (hkeys e he).2, classed]
  rw [Represents, hmap]
  exact hm

theorem maps_put (hmaps : ∀ i, Represents s.pool (s.tables i) (r.maps i)) (i : Nat) {t : Table}
    {m : Bindings} (hm : Represents s.pool t m) (j : Nat) :
    Represents s.pool ((s.put i t).tables j) ((r.put i m).maps j) := by
  by_cases hj : j = i
  · simpa only [Store.put, put, hj, if_true] using hm
  · simpa only [Store.put, put, hj, if_false] using hmaps j

/-- One operation answers as it should and goes on standing for the reference. -/
theorem Models.step (h : Models r s used) (a : Action)
    (hbefore : ∀ key ∈ used ++ a.keys, s.pool.Holds key)
    (hafter : ∀ key ∈ used ++ a.keys, (s.step a).2.pool.Holds key)
    (hnan : ∀ key ∈ a.keys, key.isNaN = false) :
    (s.step a).1 = (r.step a).1 ∧ Models (r.step a).2 (s.step a).2 (used ++ a.keys) := by
  have hsound := h.sound.step a hbefore hafter
  have hnonNaN : ∀ key ∈ used ++ a.keys, key.isNaN = false := by
    intro key hkey
    rcases List.mem_append.1 hkey with hused | hnew
    · exact h.nonNaN key hused
    · exact hnan key hnew
  have honPool (i : Nat) : Represents (a.onPool s.pool) (s.tables i) (r.maps i) := by
    apply represents_onPool a h.sound.pool (h.maps i)
    intro e he
    have hkey := List.mem_append_left a.keys (h.sound.keys i e he)
    rw [Store.pool_step] at hafter
    exact ⟨hbefore _ hkey, hafter _ hkey⟩
  obtain ⟨pool, maps⟩ := r
  obtain rfl : pool = s.pool := h.pool
  cases a with
  | set i key value kind =>
    obtain ⟨hanswer, hm⟩ := (h.exact i).represents_insert (h.maps i) key value kind
    exact ⟨congrArg some hanswer, hsound, hnonNaN, rfl, maps_put h.maps i hm⟩
  | remove i key =>
    obtain ⟨hanswer, hm⟩ := (h.exact i).represents_erase (h.maps i) key
    exact ⟨congrArg some hanswer, hsound, hnonNaN, rfl, maps_put h.maps i hm⟩
  | addAll i j =>
    obtain ⟨-, hm⟩ := (h.exact i).represents_insertAll (h.maps i) (h.exact j).nonNaN
    rw [foldl_insert_eq_union s.pool (s.tables j).entries (h.maps j)] at hm
    exact ⟨rfl, hsound, hnonNaN, rfl, maps_put h.maps i hm⟩
  | extend i added =>
    have hadded : ∀ e ∈ added, e.key.isNaN = false :=
      fun e he => hnan e.key (List.mem_map.2 ⟨e, he, rfl⟩)
    obtain ⟨-, hm⟩ := (h.exact i).represents_insertAll (h.maps i) hadded
    exact ⟨rfl, hsound, hnonNaN, rfl, maps_put h.maps i hm⟩
  | clear i => exact ⟨rfl, hsound, hnonNaN, rfl, maps_put h.maps i rfl⟩
  | intern text => exact ⟨rfl, hsound, hnonNaN, rfl, honPool⟩
  | mark i => exact ⟨rfl, hsound, hnonNaN, rfl, honPool⟩
  | sweep => exact ⟨rfl, hsound, hnonNaN, rfl, honPool⟩

/-- A whole run answers as it should and ends standing for the reference. -/
theorem Models.run (h : Models r s used) {actions : List Action}
    (hsteady : s.Steady used actions)
    (hnan : ∀ a ∈ actions, ∀ key ∈ a.keys, key.isNaN = false) :
    (s.run actions).1 = (r.run actions).1 ∧
      ∃ more, Models (r.run actions).2 (s.run actions).2 more := by
  induction actions generalizing r s used with
  | nil => exact ⟨rfl, used, h⟩
  | cons a rest ih =>
    obtain ⟨hanswer, hmodels⟩ :=
      h.step a hsteady.1 hsteady.2.holds (hnan a List.mem_cons_self)
    obtain ⟨hanswers, hend⟩ :=
      ih hmodels hsteady.2 fun b hb => hnan b (List.mem_cons_of_mem a hb)
    refine ⟨?_, hend⟩
    show (s.step a).1 :: _ = (r.step a).1 :: _
    rw [hanswer, hanswers]

end Reference

/-- What can be seen of a table is a finite map. -/
structure Shows (p : Pool) (t : Table) (m : Bindings) : Prop where
  entry : ∀ key, (t.entry? p key).map binding = m.lookup (p.keyOf key)
  value : ∀ key, t.get? p key = (m.lookup (p.keyOf key)).map Binding.value
  text : ∀ text, (t.entryOfText? p text).map binding = m.lookup (.text text)
  size : t.size = m.keys.card
  /-- A pass over the entries meets each binding once. -/
  entries : Multiset.ofList (t.entries.map (classed p)) = m.entries

theorem Exact.shows {p : Pool} {t : Table} {m : Bindings} (h : Exact p t)
    (hm : Represents p t m) : Shows p t m where
  entry := h.binding_entry? hm
  value key := by
    rw [← h.binding_entry? hm, Option.map_map]
    rfl
  text := h.binding_entryOfText? hm
  size := by
    have hcard : m.keys.card = m.entries.card := Multiset.card_map _ _
    rw [hcard, ← hm, Multiset.coe_card, List.length_map]
    exact h.shape.live_eq_length
  entries := hm

/-- Over every run without NaN as a key, the tables answer and end as finite maps do. The keys of
the maps are the classes of equal keys: texts of equal contents, other values that are equal. -/
theorem run_shows_maps (actions : List Action) (hsteady : Store.Steady {} [] actions)
    (hnan : ∀ a ∈ actions, ∀ key ∈ a.keys, key.isNaN = false) :
    (Store.run {} actions).1 = (Reference.run {} actions).1 ∧
      (∀ i, Shows (Store.run {} actions).2.pool ((Store.run {} actions).2.tables i)
        ((Reference.run {} actions).2.maps i)) ∧
      ∀ a b, a.isNaN = false →
        ((Store.run {} actions).2.pool.keyOf a = (Store.run {} actions).2.pool.keyOf b ↔
          (∃ x y, (Store.run {} actions).2.pool.textOf? a = some x ∧
            (Store.run {} actions).2.pool.textOf? b = some y ∧ x.text = y.text) ∨
          a.equals b = true) := by
  obtain ⟨hanswers, used, hmodels⟩ := Reference.models_empty.run hsteady hnan
  refine ⟨hanswers, ?_, ?_⟩
  · exact fun i => (hmodels.exact i).shows (hmodels.maps i)
  · exact fun a b ha => hmodels.sound.pool.keyOf_eq_iff b ha

/-- A run over two tables with texts and both zeros as keys, and a collection in between. -/
def textsAndZeros : List Action :=
  [.intern "a", .intern "b", .set 0 (.ref (.text 0)) (.bool true) .value, .mark 0, .sweep,
    .set 0 (.number 0) .nil .value, .set 1 (.number (-0)) .nil .getter, .addAll 0 1,
    .remove 0 (.ref (.text 0)), .extend 1 [⟨.ref (.text 0), .nil, .value, 0⟩], .clear 0]

theorem run_shows_maps_textsAndZeros :
    Store.Steady {} [] textsAndZeros ∧
      (Store.run {} textsAndZeros).1 = (Reference.run {} textsAndZeros).1 := by
  have hnew : Pool.empty.lookup? "a" = none := by simp [Pool.lookup?, Pool.empty]
  have hfirst : (Pool.empty.intern "a").2.arena.get? 0 = some ⟨"a", Hash.text "a"⟩ := by
    rw [Pool.intern_of_new hnew]
    rfl
  have hwf := Pool.wellFormed_empty.intern "a"
  have hsecond := hwf.get?_intern "b" hfirst
  have hmark := (Pool.get?_mark _ 0 0).trans hsecond
  have hreached := (Pool.isMarked_mark ((Pool.empty.intern "a").2.intern "b").2 0 0).2
    (Or.inr ⟨rfl, by rw [hsecond, Option.isSome_some]⟩)
  have hsweep := Pool.get?_sweep.2 ⟨hmark, hreached⟩
  have hsteady : Store.Steady {} [] textsAndZeros := by
    simp [textsAndZeros, Store.Steady, Action.keys, Store.pool_step, Action.onPool, Pool.Holds,
      hsecond, hmark, hsweep]
  have hnan : ∀ a ∈ textsAndZeros, ∀ key ∈ a.keys, key.isNaN = false := by
    have hzero : Float.isNaN 0 = false := by decide
    have hminus : Float.isNaN (-0) = false := by decide
    simp only [textsAndZeros, Action.keys, Value.isNaN, hzero, hminus, List.forall_mem_cons,
      List.map_cons, List.map_nil, List.not_mem_nil, false_imp_iff, implies_true, and_true]
  exact ⟨hsteady, (run_shows_maps textsAndZeros hsteady hnan).1⟩

end ScriptMachine.Table
