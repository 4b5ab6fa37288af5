import ScriptMachine.Proofs.Machine.Cover.Unwinding

/-!
Requests of the host and of natives. Each stores, hands out or drops references, and releases
nothing. A row of requests and collections keeps a machine sound and live.
-/

namespace ScriptMachine.Machine

namespace World

variable {w : World} {m : Machine}

theorem Covers.defineNative (hm : w.Covers m) (n : NativeFunction) :
    ∃ w', w ≤ w' ∧ w'.Covers (m.defineNative n).2 := by
  obtain ⟨u, hwu, hu, hn⟩ := hm.alloc (o := .native n) knows_native nofun
  obtain ⟨v, huv, hv⟩ := hu.defineGlobal n.name hn
  exact ⟨v, hwu.trans huv, hv⟩

theorem Covers.definePrimitive (hm : w.Covers m) (p : Primitive) (n : NativeFunction)
    (kind : EntryKind) : ∃ w', w ≤ w' ∧ w'.Covers (m.definePrimitive p n kind).2 := by
  obtain ⟨u, hwu, hu, hkey⟩ := hm.intern n.name
  obtain ⟨v, huv, hv, hn⟩ := hu.alloc (o := .native n) knows_native nofun
  refine ⟨v, hwu.trans huv, hv.update ?_ ?_⟩
  · intro o ho
    have hknows := hv.heap.objects _ o ho
    cases o with
    | cls c =>
      rw [knows_cls] at hknows ⊢
      obtain ⟨hsuperclass, hmethods, hrest⟩ := hknows
      exact ⟨hsuperclass, hmethods.insert _ (hkey.mono huv) hn kind, hrest⟩
    | _ => exact hknows
  · intro o _
    cases o with
    | cls c => exact Or.inr ⟨rfl, rfl, rfl, rfl⟩
    | _ => exact Or.inl rfl

theorem Covers.makeSwitch (hm : w.Covers m) {cases : List (Value × Nat)}
    (hcases : ∀ c ∈ cases, w.Knows c.1) (default? : Option Nat) (exit : Nat) :
    w.Gives (m.makeSwitch cases default? exit) := by
  have htable (t : Table) (ht : w.Knows t) : w.Knows (cases.foldl (fun (t : Table) c =>
      t.set m.heap.pool c.1 (.number (Float.ofNat c.2))) t) := by
    induction cases generalizing t with
    | nil => exact ht
    | cons c cases ih =>
      refine ih (fun c' hc' => hcases c' (List.mem_cons_of_mem c hc')) _ ?_
      exact ht.set _ (hcases c List.mem_cons_self) knows_number
  exact hm.alloc (knows_switch.2 (htable {} knows_empty)) nofun

theorem Covers.installBootstrap (hm : w.Covers m) (args : List String) :
    ∃ w', w ≤ w' ∧ w'.Covers (m.installBootstrap args) := by
  have hstreams (streams : List String) {u : World} {m' : Machine} (hu : u.Covers m') :
      ∃ v, u ≤ v ∧ v.Covers (streams.foldl (fun m stream =>
        (m.intern stream.toLower).2.defineGlobal stream (m.intern stream.toLower).1) m') := by
    induction streams generalizing u m' with
    | nil => exact ⟨u, le_refl u, hu⟩
    | cons stream streams ih =>
      obtain ⟨v, huv, hv, hhandle⟩ := hu.intern stream.toLower
      obtain ⟨x, hvx, hx⟩ := hv.defineGlobal stream hhandle
      obtain ⟨y, hxy, hy⟩ := ih hx
      exact ⟨y, (huv.trans hvx).trans hxy, hy⟩
  obtain ⟨u, hwu, hu, hitems⟩ := hm.internAll args
  have harray : u.Knows (Object.array (m.internAll args).1.toArray) := hitems
  obtain ⟨v, huv, hv, hargv⟩ := hu.alloc harray nofun
  obtain ⟨x, hvx, hx⟩ := hv.defineGlobal "ARGV" hargv
  obtain ⟨y, hxy, hy⟩ := hstreams ["STDIN", "STDOUT", "STDERR"] hx
  exact ⟨y, ((hwu.trans huv).trans hvx).trans hxy, hy⟩

theorem Covers.pin (hm : w.Covers m) {v : Value} (hv : w.Knows v) : w.Covers (m.pin v) := by
  refine ⟨hm.heap, { hm.state with pinned := ?_ }⟩
  intro u hu
  rcases Array.mem_push.1 hu with hold | rfl
  · exact hm.state.pinned u hold
  · exact hv

theorem Covers.unpin (hm : w.Covers m) (v : Value) : w.Covers (m.unpin v).2 := by
  unfold Machine.unpin
  dsimp only
  split
  · refine ⟨hm.heap, { hm.state with pinned := ?_ }⟩
    intro u hu
    rcases Array.mem_or_eq_of_mem_setIfInBounds (ArraySlots.mem_of_mem_pop hu) with hold | rfl
    · exact hm.state.pinned u hold
    · exact knows_getD hm.state.pinned _
  · exact hm

/-- A request that passes what is known. -/
theorem Covers.perform (hm : w.Covers m) {q : Request} (hallowed : q.Allowed m.heap)
    (hpassed : ∀ r ∈ q.passed, w.Has r) : ∃ w', w ≤ w' ∧ w'.Covers (q.perform m) := by
  cases q with
  | alloc o =>
    have hpaired : ∀ c, o = .closure c → w.code c.function (.function c.proto) := by
      intro c hc
      rw [hc] at hallowed
      exact (hm.heap.code _ _).2 ⟨rfl, hallowed⟩
    obtain ⟨u, hle, hu, -⟩ := hm.alloc hpassed hpaired
    exact ⟨u, hle, hu⟩
  | intern text =>
    obtain ⟨u, hle, hu, -⟩ := hm.intern text
    exact ⟨u, hle, hu⟩
  | defineGlobal name v => exact hm.defineGlobal name hpassed
  | defineNative n => exact hm.defineNative n
  | definePrimitive p n kind => exact hm.definePrimitive p n kind
  | makeSwitch cases default? exit =>
    have hcases : ∀ c ∈ cases, w.Knows c.1 :=
      fun c hc r hr => hpassed r (List.mem_flatMap.2 ⟨c, hc, hr⟩)
    obtain ⟨u, hle, hu, -⟩ := hm.makeSwitch hcases default? exit
    exact ⟨u, hle, hu⟩
  | makeException kind message =>
    obtain ⟨u, hle, hu, -⟩ := hm.makeException kind message
    exact ⟨u, hle, hu⟩
  | raise e => exact ⟨w, le_refl w, hm.heap, { hm.state with raised := hpassed }⟩
  | pin v => exact ⟨w, le_refl w, hm.pin hpassed⟩
  | unpin v => exact ⟨w, le_refl w, hm.unpin v⟩
  | redirect output errors => exact ⟨w, le_refl w, hm.heap, { hm.state with }⟩
  | installBootstrap args => exact hm.installBootstrap args

/-- What a later world of a stretch says of a machine. -/
theorem Covers.account {σ : Stretch} (hm : w.Covers m) (hstretch : w.stretch = σ) :
    σ.start.heap.Grows w.created m.heap ∧ Live m (σ.at w.created m) :=
  hstretch ▸ ⟨hm.heap.grows, hm.live⟩

end World

variable {m m' : Machine} {g : Births}

theorem Sound.request (hsound : m.Sound) (hlive : Live m g) {q : Request} (hproper : q.Proper m) :
    (q.perform m).Sound ∧ ∃ created, m.heap.Grows created (q.perform m).heap ∧
      Live (q.perform m) (g.after m (created ++ q.passed) (q.perform m)) := by
  let σ : Stretch := ⟨m, g, q.passed⟩
  have hm : (World.start σ).Covers m := World.covers_start hsound hlive hproper.2
  obtain ⟨w, hle, hw⟩ := hm.perform hproper.1 fun r hr => Or.inr (Or.inl hr)
  exact ⟨hw.sound, w.created, hw.account hle.stretch⟩

theorem stack_setField (m : Machine) (target key value : Value) :
    (m.setField target key value).stack = m.stack := by
  cases target <;> rfl

theorem stack_internAll (m : Machine) (lines : List String) :
    (m.internAll lines).2.stack = m.stack := by
  induction lines generalizing m with
  | nil => rfl
  | cons line rest ih => exact ih (m.intern line).2

theorem stack_installBootstrap (m : Machine) (args : List String) :
    (m.installBootstrap args).stack = m.stack := by
  have hstreams (streams : List String) (m : Machine) : (streams.foldl (fun m stream =>
      (m.intern stream.toLower).2.defineGlobal stream (m.intern stream.toLower).1) m).stack =
        m.stack := by
    induction streams generalizing m with
    | nil => rfl
    | cons stream streams ih => exact ih _
  exact (hstreams _ _).trans (stack_internAll m args)

theorem stack_perform (m : Machine) (q : Request) : (q.perform m).stack = m.stack := by
  cases q with
  | makeException kind message => exact stack_setField _ _ _ _
  | unpin v =>
    unfold Request.perform Machine.unpin
    dsimp only
    split <;> rfl
  | installBootstrap args => exact stack_installBootstrap m args
  | _ => rfl

/-- A request keeps a sound machine kempt. -/
theorem Kempt.request (hk : m.Kempt) (hsound : m.Sound) {q : Request} (hproper : q.Proper m) :
    (q.perform m).Kempt := by
  let σ : Stretch := ⟨m, .initial m, q.passed⟩
  have hm : (World.start σ).Covers m :=
    World.covers_start hsound (live_initial hsound) hproper.2
  obtain ⟨w, hle, hw⟩ := hm.perform hproper.1 fun r hr => Or.inr (Or.inl hr)
  apply hw.state.kempt
  rw [hle.stretch]
  exact hk

/-- What requests and collections do can be accounted for. -/
theorem Served.serving (hserved : m.Served m') (hsound : m.Sound) (hlive : Live m g) :
    m'.Sound ∧ m'.stack = m.stack ∧ ∃ g', Serving m g m' g' ∧ Live m' g' := by
  induction hserved with
  | done => exact ⟨hsound, rfl, g, .done, hlive⟩
  | request _ q hproper ih =>
    obtain ⟨hsound', hstack, g', hserving, hlive'⟩ := ih
    obtain ⟨hnext, created, hgrows, hafter⟩ := hsound'.request hlive' hproper
    exact ⟨hnext, (stack_perform _ q).trans hstack, _, .request hserving q hproper hgrows hafter,
      hafter⟩
  | collect _ ih =>
    obtain ⟨hsound', hstack, g', hserving, hlive'⟩ := ih
    have hafter := hlive'.collect hsound'
    exact ⟨hsound'.collect, hstack, _, .collect hserving hafter, hafter⟩

theorem Kempt.served (hk : m.Kempt) (hsound : m.Sound) (hserved : m.Served m') : m'.Kempt := by
  induction hserved with
  | done => exact hk
  | request hserved q hproper ih =>
    exact ih.request (hserved.serving hsound (live_initial hsound)).1 hproper
  | collect _ ih => exact ih.collect

end ScriptMachine.Machine
