import ScriptMachine.Proofs.Machine.Captures.Sessions

/-!
Calling and rendering what is bound. Both follow bound methods to what they bind, and rendering goes
into arrays and dicts besides, which may hold themselves. A chain of bound methods ends because each
binds what was there before it, and a container takes one of eight levels, so both end for every
value of every session.
-/

namespace ScriptMachine

namespace Heap

variable {h : Heap} {v target : Value} {r : Ref} {depth : Nat} {quoted : Bool}

/-! Calling. -/

theorem Anchored.ends (hv : h.Anchored v) : ∃ n, Walk.Ends h.method? n v := by
  induction hv with
  | plain _ hplain => exact ⟨0, .stop hplain⟩
  | bound hmethod _ ih =>
    obtain ⟨n, hn⟩ := ih
    exact ⟨n + 1, .step hmethod hn⟩

theorem Bonded.ends (hh : h.Bonded) (v : Value) : ∃ n, Walk.Ends h.method? n v := by
  cases hmethod : h.method? v with
  | none => exact ⟨0, .stop hmethod⟩
  | some target => exact (Anchored.bound hmethod (hh.anchored v target hmethod)).ends

theorem method?_of_callee? (hplain : ∀ b, h.callee? v = some (.bound b) → False) :
    h.method? v = none := by
  rw [Option.eq_none_iff_forall_ne_some]
  intro target hmethod
  obtain ⟨b, hb, -⟩ := method?_eq_some.1 hmethod
  exact hplain b (callee?_eq_bound.2 hb)

/-- What is left in the end binds nothing. -/
theorem method?_of_unbind {fuel : Nat} {receiver? receiver'? : Option Value}
    (hunbind : h.unbind fuel receiver? v = some (receiver'?, target)) :
    h.method? target = none := by
  induction fuel generalizing receiver? v with
  | zero =>
    unfold unbind at hunbind
    split at hunbind
    · cases hunbind
    · next hplain =>
      cases hunbind
      exact method?_of_callee? hplain
  | succ fuel ih =>
    unfold unbind at hunbind
    split at hunbind
    · exact ih hunbind
    · next hplain =>
      cases hunbind
      exact method?_of_callee? hplain

theorem Bonded.exists_unbind (hh : h.Bonded) (v : Value) :
    ∃ receiver? target, h.method? target = none ∧
      ∀ fuel, h.linkLimit ≤ fuel → h.unbind fuel none v = some (receiver?, target) := by
  obtain ⟨⟨receiver?, target⟩, hunbind⟩ := Option.ne_none_iff_exists'.1 (hh.unbind_ne_none v)
  refine ⟨receiver?, target, method?_of_unbind hunbind, fun fuel hfuel => ?_⟩
  rw [← unbind_eq_of_le hfuel, hunbind]

/-! Rendering. -/

/-- What rendering a value at a depth goes on to. -/
inductive Enters (h : Heap) : Nat × Value → Nat × Value → Prop where
  | bound {depth : Nat} {r : Ref} {b : BoundMethod} (hr : h.get? r = some (.bound b)) :
      Enters h (depth, .ref r) (depth, b.method)
  | item {depth : Nat} {r : Ref} {items : Array Value} {v : Value}
      (hr : h.get? r = some (.array items)) (hdepth : depth < depthLimit) (hv : v ∈ items) :
      Enters h (depth, .ref r) (depth + 1, v)
  | key {depth : Nat} {r : Ref} {d : Dict} {key : Value} (hr : h.get? r = some (.dict d))
      (hdepth : depth < depthLimit) (hkey : key ∈ d.keys) :
      Enters h (depth, .ref r) (depth + 1, key)
  | value {depth : Nat} {r : Ref} {d : Dict} {key : Value} (hr : h.get? r = some (.dict d))
      (hdepth : depth < depthLimit) (hkey : key ∈ d.keys) :
      Enters h (depth, .ref r) (depth + 1, (d.table.get? h.pool key).getD .nil)

/-- From a value that binds nothing, rendering goes deeper. -/
theorem Enters.deeper {p q : Nat × Value} (hpq : h.Enters p q) (hp : h.method? p.2 = none) :
    p.1 < depthLimit ∧ q.1 = p.1 + 1 := by
  cases hpq with
  | bound hr =>
    rw [method?_of_get? hr rfl] at hp
    cases hp
  | item _ hdepth _ => exact ⟨hdepth, rfl⟩
  | key _ hdepth _ => exact ⟨hdepth, rfl⟩
  | value _ hdepth _ => exact ⟨hdepth, rfl⟩

/-- From a bound method, rendering goes on to what it binds. -/
theorem Enters.eq_of_method? {p q : Nat × Value} (hpq : h.Enters p q)
    (hp : h.method? p.2 = some target) : q = (p.1, target) := by
  have hcontainer {r : Ref} {o : Object} (hr : h.get? r = some o) (ho : o.method? = none)
      (hmethod : h.method? (.ref r) = some target) : False := by
    rw [method?_ref, hr, Option.bind_some, ho] at hmethod
    cases hmethod
  cases hpq with
  | bound hr =>
    rw [method?_of_get? hr rfl] at hp
    rw [Option.some.inj hp]
  | item hr _ _ => exact (hcontainer hr rfl hp).elim
  | key hr _ _ => exact (hcontainer hr rfl hp).elim
  | value hr _ _ => exact (hcontainer hr rfl hp).elim

/-- Rendering ends where it would end one level deeper. -/
theorem Bonded.acc_enters (hh : h.Bonded)
    (hdeeper : depth < depthLimit → ∀ u, Acc (fun q p => h.Enters p q) (depth + 1, u)) (v : Value) :
    Acc (fun q p => h.Enters p q) (depth, v) := by
  have hplain {u : Value} (hu : h.method? u = none) :
      Acc (fun q p => h.Enters p q) (depth, u) := by
    refine .intro _ fun q hq => ?_
    obtain ⟨hdepth, hnext⟩ := hq.deeper hu
    obtain ⟨_, w⟩ := q
    obtain rfl := hnext
    exact hdeeper hdepth w
  have hbound {u target : Value} (hu : h.method? u = some target)
      (htarget : Acc (fun q p => h.Enters p q) (depth, target)) :
      Acc (fun q p => h.Enters p q) (depth, u) :=
    .intro _ fun q hq => hq.eq_of_method? hu ▸ htarget
  have hanchored {u : Value} (hu : h.Anchored u) : Acc (fun q p => h.Enters p q) (depth, u) := by
    induction hu with
    | plain _ hu => exact hplain hu
    | bound hu _ ih => exact hbound hu ih
  cases hmethod : h.method? v with
  | none => exact hplain hmethod
  | some target => exact hbound hmethod (hanchored (hh.anchored v target hmethod))

/-- Rendering ends: it goes to what is bound, which ends, or one level deeper, of which there are
eight. -/
theorem Bonded.wellFounded_enters (hh : h.Bonded) : WellFounded fun q p => h.Enters p q := by
  have hlevels (levels : Nat) : ∀ depth, depthLimit ≤ depth + levels → ∀ v,
      Acc (fun q p => h.Enters p q) (depth, v) := by
    induction levels with
    | zero => exact fun depth hle => hh.acc_enters fun hlt => by omega
    | succ levels ih => exact fun depth hle => hh.acc_enters fun _ => ih (depth + 1) (by omega)
  exact ⟨fun p => hlevels depthLimit p.1 (Nat.le_add_left _ _) p.2⟩

/-! The text of a value, level by level. -/

/-- The text of a value inside so many containers. -/
def textAt (h : Heap) (depth : Nat) : Bool → Value → String := h.renderAt (depthLimit - depth)

/-- How the text of a value is made of the texts of what rendering goes on to. -/
structure RendersByLevel (h : Heap) : Prop where
  plain : ∀ v, h.render v = h.textAt 0 false v
  quoted : ∀ v, h.renderQuoted v = h.textAt 0 true v
  bound : ∀ depth quoted r b, h.get? r = some (.bound b) →
    h.textAt depth quoted (.ref r) = h.textAt depth false b.method
  array : ∀ depth quoted r items, h.get? r = some (.array items) → depth < depthLimit →
    h.textAt depth quoted (.ref r) =
      "[" ++ ", ".intercalate (items.toList.map (h.textAt (depth + 1) true)) ++ "]"
  dict : ∀ depth quoted r d, h.get? r = some (.dict d) → depth < depthLimit →
    h.textAt depth quoted (.ref r) =
      "\x7b" ++ ", ".intercalate (d.keys.toList.map fun key =>
        h.textAt (depth + 1) true key ++ ": " ++
          h.textAt (depth + 1) true ((d.table.get? h.pool key).getD .nil)) ++ "\x7d"
  deepArray : ∀ depth quoted r items, h.get? r = some (.array items) → depthLimit ≤ depth →
    h.textAt depth quoted (.ref r) = "[...]"
  deepDict : ∀ depth quoted r d, h.get? r = some (.dict d) → depthLimit ≤ depth →
    h.textAt depth quoted (.ref r) = "\x7b...\x7d"

theorem renderWith_array (element : Option (Value → String)) (links : Nat) {items : Array Value}
    (hr : h.get? r = some (.array items)) :
    h.renderWith element links quoted (.ref r) = renderArray items element := by
  cases r with
  | object i => simp [renderWith, hr]
  | text i => cases hr

theorem renderWith_dict (element : Option (Value → String)) (links : Nat) {d : Dict}
    (hr : h.get? r = some (.dict d)) :
    h.renderWith element links quoted (.ref r) = h.renderDict d element := by
  cases r with
  | object i => simp [renderWith, hr]
  | text i => cases hr

/-- A bound method shows its method, however many more links there are. -/
theorem renderWith_bound (element : Option (Value → String)) {b : BoundMethod}
    (hr : h.get? r = some (.bound b)) :
    h.renderWith element h.linkLimit quoted (.ref r) =
      h.renderWith element h.linkLimit false b.method := by
  rw [renderWith_eq_of_le element (Nat.le_succ _) quoted]
  cases r with
  | object i => simp [renderWith, hr]
  | text i => cases hr

theorem textAt_of_lt (hdepth : depth < depthLimit) :
    h.textAt depth = h.renderWith (some (h.textAt (depth + 1) true)) h.linkLimit := by
  unfold textAt
  obtain ⟨room, hroom⟩ : ∃ room, depthLimit - depth = room + 1 :=
    ⟨depthLimit - (depth + 1), by omega⟩
  rw [hroom, show depthLimit - (depth + 1) = room by omega]
  rfl

theorem textAt_of_le (hdepth : depthLimit ≤ depth) :
    h.textAt depth = h.renderWith none h.linkLimit := by
  unfold textAt
  rw [Nat.sub_eq_zero_of_le hdepth]
  rfl

theorem rendersByLevel (h : Heap) : h.RendersByLevel where
  plain _ := rfl
  quoted _ := rfl
  bound depth quoted r b hr := by
    by_cases hdepth : depth < depthLimit
    · rw [textAt_of_lt hdepth]
      exact renderWith_bound _ hr
    · rw [textAt_of_le (Nat.le_of_not_lt hdepth)]
      exact renderWith_bound _ hr
  array depth quoted r items hr hdepth := by
    rw [textAt_of_lt hdepth, renderWith_array _ _ hr]
    rfl
  dict depth quoted r d hr hdepth := by
    rw [textAt_of_lt hdepth, renderWith_dict _ _ hr]
    rfl
  deepArray depth quoted r items hr hdepth := by
    rw [textAt_of_le hdepth, renderWith_array _ _ hr]
    rfl
  deepDict depth quoted r d hr hdepth := by
    rw [textAt_of_le hdepth, renderWith_dict _ _ hr]
    rfl

/-- An array that holds itself is shown eight levels deep. -/
example :
    let h := (Machine.bare.heap.alloc (.array #[.ref (.object 0)])).2
    h.render (.ref (.object 0)) = "[[[[[[[[[...]]]]]]]]]" := by cbv

end Heap

namespace Machine

variable {host : Host} {settings : Settings} {m : Machine}

/-- The receiver of a bound method takes the place of the callee. -/
def placeReceiver (receiver? : Option Value) (count : Nat) : Exec Unit :=
  match receiver? with
  | some receiver => do setSlot (← calleeSlot count) receiver
  | none => pure ()

/-- A call goes to what is bound in the end, beside its receiver. -/
theorem callValue_of_unbind {v target : Value} {receiver? : Option Value}
    (hunbind : m.heap.unbind m.heap.linkLimit none v = some (receiver?, target)) (count : Nat) :
    callValue host v count m =
      (do placeReceiver receiver? count; callTarget host m target count : Exec Unit) m := by
  unfold callValue
  rw [get_bind, hunbind]
  cases receiver? with
  | none => rfl
  | some receiver =>
    have hassoc := bind_assoc (calleeSlot count) (fun base => setSlot base receiver)
      fun _ => callTarget host m target count
    exact (congrFun hassoc m).symm

/-- What is bound ends: following it, calling it and rendering it. -/
structure BoundEnds (host : Host) (m : Machine) : Prop where
  chains : ∀ v, ∃ n, Walk.Ends m.heap.method? n v
  calls : ∀ v, ∃ receiver? target, m.heap.method? target = none ∧
    (∀ fuel, m.heap.linkLimit ≤ fuel → m.heap.unbind fuel none v = some (receiver?, target)) ∧
    ∀ count, callValue host v count m =
      (do placeReceiver receiver? count; callTarget host m target count : Exec Unit) m
  rendering : WellFounded fun q p => m.heap.Enters p q
  texts : m.heap.RendersByLevel

/-- In every session what is bound ends. -/
theorem bound_chains_end (horderly : host.Orderly) (hreached : Reached host settings m) :
    m.BoundEnds host := by
  have hbonded := (hreached.kempt horderly).bonded
  refine ⟨hbonded.ends, fun v => ?_, hbonded.wellFounded_enters, m.heap.rendersByLevel⟩
  obtain ⟨receiver?, target, hplain, hunbind⟩ := hbonded.exists_unbind v
  exact ⟨receiver?, target, hplain, hunbind, callValue_of_unbind (hunbind _ (Nat.le_refl _))⟩

/-- A new machine with a native, a bound method of it and a bound method of that one. -/
def withBoundTwice : Machine :=
  let native := (Machine.new {}).alloc (.native { name := "f", arity := none, routine := .host "f" })
  let bound := native.2.alloc (.bound { receiver := .nil, method := native.1 })
  (bound.2.alloc (.bound { receiver := .nil, method := bound.1 })).2

theorem bound_chains_end_withBoundTwice : withBoundTwice.BoundEnds (Host.stock .closed) := by
  have hbind {m : Machine} {o : Object} (hm : Reached (Host.stock .closed) {} (m.alloc o).2)
      (hwf : m.heap.WellFormed) : Reached (Host.stock .closed) {}
        ((m.alloc o).2.alloc (.bound { receiver := .nil, method := (m.alloc o).1 })).2 := by
    refine hm.request (.alloc _) ⟨trivial, fun r hr => ?_⟩
    rw [List.mem_singleton.1 hr]
    exact Heap.occupied_of_get? (Heap.get?_alloc_self hwf o)
  have hnative : Reached (Host.stock .closed) {} ((Machine.new {}).alloc
      (.native { name := "f", arity := none, routine := .host "f" })).2 :=
    .request .new (.alloc _) ⟨trivial, nofun⟩
  have hbound := hbind hnative (sound_new {}).heap
  exact bound_chains_end Host.orderly_stock (hbind hbound (hnative.sound Host.orderly_stock).heap)

end Machine

end ScriptMachine
