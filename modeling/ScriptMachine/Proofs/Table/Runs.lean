import ScriptMachine.Proofs.Table.Shape

/-!
Runs over a pool and any number of tables. Every table starts out empty, texts are interned, marked
and swept in between, and the tables are set, removed from, joined, extended and cleared in any
order. As long as the pool holds the texts used as keys, every table that comes up has its shape
and every entry keeps the hash of its key.
-/

namespace ScriptMachine.Table

/-- One operation on the pool or on one of the tables. -/
inductive Action where
  | intern (text : String)
  | mark (index : Nat)
  | sweep
  | set (table : Nat) (key value : Value) (kind : EntryKind)
  | remove (table : Nat) (key : Value)
  | addAll (table other : Nat)
  | extend (table : Nat) (added : List Entry)
  | clear (table : Nat)

/-- A pool and the tables over it. -/
structure Store where
  pool : Pool := .empty
  tables : Nat → Table := fun _ => .empty

namespace Action

/-- The values that an operation uses as keys. -/
def keys : Action → List Value
  | set _ key _ _ => [key]
  | remove _ key => [key]
  | extend _ added => added.map Entry.key
  | _ => []

def onPool : Action → Pool → Pool
  | intern text, p => (p.intern text).2
  | mark i, p => p.mark i
  | sweep, p => p.sweep.2
  | _, p => p

theorem wellFormed_onPool (a : Action) {p : Pool} (h : p.WellFormed) : (a.onPool p).WellFormed := by
  cases a with
  | intern text => exact h.intern text
  | mark i => exact h.mark i
  | sweep => exact h.sweep
  | _ => exact h

/-- A slot that is occupied before and after one operation holds the same text. -/
theorem get?_onPool (a : Action) {p : Pool} (h : p.WellFormed) {i : Nat} {x y : Interned}
    (hx : p.arena.get? i = some x) (hy : (a.onPool p).arena.get? i = some y) : y = x := by
  have hsame : p.arena.get? i = some y := by
    cases a with
    | intern text =>
      have hkept := h.get?_intern text hx
      rw [hx, ← hkept]
      exact hy
    | mark j => rwa [onPool, Pool.get?_mark] at hy
    | sweep => exact (Pool.get?_sweep.1 hy).1
    | _ => exact hy
  rw [hx] at hsame
  exact (Option.some.inj hsame).symm

theorem textOf?_onPool (a : Action) {p : Pool} (h : p.WellFormed) {key : Value}
    (hbefore : p.Holds key) (hafter : (a.onPool p).Holds key) :
    (a.onPool p).textOf? key = p.textOf? key := by
  rcases key with _ | _ | _ | (i | i)
  case ref.text =>
    obtain ⟨x, hx⟩ := hbefore i rfl
    obtain ⟨y, hy⟩ := hafter i rfl
    show (a.onPool p).arena.get? i = p.arena.get? i
    rw [hx, hy, a.get?_onPool h hx hy]
  all_goals rfl

theorem hashKey_onPool (a : Action) {p : Pool} (h : p.WellFormed) {key : Value}
    (hbefore : p.Holds key) (hafter : (a.onPool p).Holds key) :
    (a.onPool p).hashKey key = p.hashKey key := by
  rw [Pool.hashKey, a.textOf?_onPool h hbefore hafter, Pool.hashKey]

end Action

namespace Store

def put (s : Store) (i : Nat) (t : Table) : Store :=
  { s with tables := fun j => if j = i then t else s.tables j }

/-- An operation with its answer: whether a set key was new, or a removed one there. -/
def step (s : Store) : Action → Option Bool × Store
  | .set i key value kind =>
    let r := (s.tables i).insert s.pool key value kind
    (some r.1, s.put i r.2)
  | .remove i key =>
    let r := (s.tables i).erase s.pool key
    (some r.1, s.put i r.2)
  | .addAll i j => (none, s.put i ((s.tables i).addAll s.pool (s.tables j)))
  | .extend i added => (none, s.put i ((s.tables i).insertAll s.pool added))
  | .clear i => (none, s.put i .empty)
  | a => (none, { s with pool := a.onPool s.pool })

/-- A run with its answers. -/
def run (s : Store) : List Action → List (Option Bool) × Store
  | [] => ([], s)
  | a :: rest =>
    let r := run (s.step a).2 rest
    ((s.step a).1 :: r.1, r.2)

/-- Along a run, the pool holds every text from its first use as a key on. -/
def Steady (s : Store) (used : List Value) : List Action → Prop
  | [] => ∀ key ∈ used, s.pool.Holds key
  | a :: rest =>
    (∀ key ∈ used ++ a.keys, s.pool.Holds key) ∧ Steady (s.step a).2 (used ++ a.keys) rest

theorem pool_step (s : Store) (a : Action) : (s.step a).2.pool = a.onPool s.pool := by
  cases a <;> rfl

theorem Steady.holds {s : Store} {used : List Value} {actions : List Action}
    (h : Steady s used actions) : ∀ key ∈ used, s.pool.Holds key := by
  cases actions with
  | nil => exact h
  | cons a rest => exact fun key hkey => h.1 key (List.mem_append_left _ hkey)

/-- What every run keeps: the pool and the tables are well-formed, and the keys of the tables are
among those used. -/
structure Sound (s : Store) (used : List Value) : Prop where
  pool : s.pool.WellFormed
  shape : ∀ i, (s.tables i).Shape
  hashed : ∀ i, Hashed s.pool (s.tables i)
  keys : ∀ i, ∀ e ∈ (s.tables i).entries, e.key ∈ used

theorem sound_empty : Sound {} [] where
  pool := Pool.wellFormed_empty
  shape _ := shape_empty
  hashed _ e he := by simp [Table.empty, entries] at he
  keys _ e he := by simp [Table.empty, entries] at he

/-- Tables that stay as they are stay sound over a changed pool. -/
theorem Sound.onPool {s : Store} {used : List Value} (h : Sound s used) (a : Action)
    (hbefore : ∀ key ∈ used, s.pool.Holds key)
    (hafter : ∀ key ∈ used, (a.onPool s.pool).Holds key) :
    Sound { s with pool := a.onPool s.pool } used where
  pool := a.wellFormed_onPool h.pool
  shape := h.shape
  hashed i e he := by
    have hkey := h.keys i e he
    rw [h.hashed i e he, a.hashKey_onPool h.pool (hbefore _ hkey) (hafter _ hkey)]
  keys := h.keys

/-- A changed table keeps the store sound if it is sound itself. -/
theorem Sound.put {s : Store} {used : List Value} (h : Sound s used) (i : Nat) {t : Table}
    (hshape : t.Shape) (hall : ∀ e ∈ t.entries, e.hash = s.pool.hashKey e.key ∧ e.key ∈ used) :
    Sound (s.put i t) used := by
  refine ⟨h.pool, ?_, ?_, ?_⟩
  · intro j
    by_cases hj : j = i
    · simpa only [Store.put, hj, if_true] using hshape
    · simpa only [Store.put, hj, if_false] using h.shape j
  · intro j e he
    by_cases hj : j = i
    · simp only [Store.put, hj, if_true] at he
      exact (hall e he).1
    · simp only [Store.put, hj, if_false] at he
      exact h.hashed j e he
  · intro j e he
    by_cases hj : j = i
    · simp only [Store.put, hj, if_true] at he
      exact (hall e he).2
    · simp only [Store.put, hj, if_false] at he
      exact h.keys j e he

theorem Sound.mono {s : Store} {used : List Value} (h : Sound s used) (more : List Value) :
    Sound s (used ++ more) :=
  ⟨h.pool, h.shape, h.hashed, fun i e he => List.mem_append_left _ (h.keys i e he)⟩

theorem Sound.forall_entries {s : Store} {used : List Value} (h : Sound s used) (i : Nat) :
    ∀ e ∈ (s.tables i).entries, e.hash = s.pool.hashKey e.key ∧ e.key ∈ used :=
  fun e he => ⟨h.hashed i e he, h.keys i e he⟩

/-- One operation keeps the store sound. -/
theorem Sound.step {s : Store} {used : List Value} (h : Sound s used) (a : Action)
    (hbefore : ∀ key ∈ used ++ a.keys, s.pool.Holds key)
    (hafter : ∀ key ∈ used ++ a.keys, (s.step a).2.pool.Holds key) :
    Sound (s.step a).2 (used ++ a.keys) := by
  have hmore := h.mono a.keys
  rw [pool_step] at hafter
  cases a with
  | set i key value kind =>
    apply hmore.put i ((h.shape i).insert s.pool key value kind).1
    exact (h.shape i).forall_insert s.pool key value kind ⟨rfl, by simp [Action.keys, entryFor]⟩
      (hmore.forall_entries i)
  | remove i key =>
    apply hmore.put i ((h.shape i).erase s.pool key).1
    exact (h.shape i).forall_erase s.pool key (hmore.forall_entries i)
  | addAll i j =>
    apply hmore.put i ((h.shape i).insertAll s.pool (s.tables j).entries)
    exact (h.shape i).forall_insertAll s.pool (s.tables j).entries
      (fun e he => ⟨rfl, hmore.keys j e he⟩) (hmore.forall_entries i)
  | extend i added =>
    apply hmore.put i ((h.shape i).insertAll s.pool added)
    refine (h.shape i).forall_insertAll s.pool added ?_ (hmore.forall_entries i)
    intro e he
    exact ⟨rfl, List.mem_append_right _ (List.mem_map.2 ⟨e, he, rfl⟩)⟩
  | clear i =>
    apply hmore.put i shape_empty
    intro e he
    simp [Table.empty, entries] at he
  | intern text => exact hmore.onPool (.intern text) hbefore hafter
  | mark i => exact hmore.onPool (.mark i) hbefore hafter
  | sweep => exact hmore.onPool .sweep hbefore hafter

/-- A whole run keeps the store sound. -/
theorem Sound.run {s : Store} {used : List Value} (h : Sound s used) {actions : List Action}
    (hsteady : Steady s used actions) :
    ∃ more, Sound (s.run actions).2 more ∧ ∀ key ∈ more, (s.run actions).2.pool.Holds key := by
  induction actions generalizing s used with
  | nil => exact ⟨used, h, hsteady⟩
  | cons a rest ih => exact ih (h.step a hsteady.1 hsteady.2.holds) hsteady.2

end Store

end ScriptMachine.Table
