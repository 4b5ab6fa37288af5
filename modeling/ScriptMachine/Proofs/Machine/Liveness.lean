import ScriptMachine.Proofs.Machine.Construction
import ScriptMachine.Proofs.Machine.Cover.Step
import ScriptMachine.Proofs.Machine.StockNatives

/-!
No dangling references. Every machine that comes up in a session of an orderly host is live: what
it holds leads to occupied slots, and each of them has kept what it had when the reference was
created.
-/

namespace ScriptMachine.Machine

namespace World

variable {α : Type} [Linked α] {R : World → World → Prop} {w : World} {m : Machine} {host : Host}

theorem Ends.final {e : EStateM.Result Signal Machine α} (h : w.Ends R e) :
    ∃ w', R w w' ∧ w'.Covers (final e) := by
  cases e with
  | ok a m =>
    obtain ⟨w', hR, hm, -⟩ := h
    exact ⟨w', hR, hm⟩
  | error s m =>
    obtain ⟨w', hR, hm, -⟩ := h
    exact ⟨w', hR, hm⟩

theorem Covers.entered (hm : w.Covers m) {proto : Prototype}
    (hconstants : w.Knows (Object.function proto)) :
    ∃ w', w ≤ w' ∧ w'.Covers (m.entered proto) := by
  obtain ⟨u, hwu, hu, hfunction, hcode⟩ := hm.heap.alloc hconstants nofun
  let c : Closure :=
    { function := (m.heap.alloc (.function proto)).1, proto := proto, upvalues := [] }
  have hknows : u.Knows (Object.closure c) := knows_closure.2 ⟨hfunction, nofun⟩
  have hpaired : ∀ c', Object.closure c = .closure c' →
      u.code c'.function (.function c'.proto) := by
    intro c' hc'
    obtain rfl := Object.closure.inj hc'
    exact hcode rfl
  obtain ⟨v, huv, hv, hclosure, hcode'⟩ := hu.alloc hknows hpaired
  have hkempt (hk : m.Kempt) : (m.entered proto).Kempt := by
    have hfunction := Heap.Kempt.alloc hk fun s hs => hm.heap.occupied (hconstants s hs)
    have hclosure := hfunction.alloc fun s hs => hu.occupied (hknows s hs)
    let stored : Machine :=
      { m with heap := ((m.heap.alloc (.function proto)).2.alloc (.closure c)).2 }
    exact Kempt.enter (m := stored) hclosure _
  have hbacks := hm.state.mono (hwu.trans huv)
  refine ⟨v, hwu.trans huv, hv,
    { hbacks with
      stack := ?_, frames := ?_, kempt := fun hstart => hkempt (hbacks.kempt hstart) }⟩
  · intro x hx
    rcases Array.mem_push.1 hx with hold | rfl
    · exact hbacks.stack x hold
    · exact knows_ref.2 hclosure
  · intro f hf
    rcases List.mem_cons.1 hf with rfl | hold
    · exact ⟨hclosure, c, hcode' rfl, rfl⟩
    · exact hbacks.frames f hold

theorem keeps_takeResult : w.Keeps takeResult := by
  refine keeps_pop.then fun v hv => ?_
  have hclear : w.Keeps (modify fun m : Machine => { m with stack := #[] } : Exec Unit) :=
    keeps_modify fun m hm => hm.withStack fun v hv => absurd hv (Array.not_mem_empty v)
  exact hclear.then fun _ _ => does_pure hv

/-- An action of the machine on what is known. -/
theorem Covers.act (horderly : host.Orderly) (hm : w.Covers m) {a : Activity}
    (hpassed : ∀ r ∈ a.passed, w.Has r) :
    ∃ w', Reaches host w w' ∧ w'.Covers (a.perform host m) := by
  have hstay {u : World} (hle : w ≤ u) : Reaches host w u :=
    Trans.trans hle (Std.Refl.refl (r := Reaches host) u)
  cases a with
  | enter proto =>
    obtain ⟨u, hle, hu⟩ := hm.entered hpassed
    exact ⟨u, hstay hle, hu⟩
  | call callee args =>
    obtain ⟨hcallee, hargs⟩ := List.forall_mem_append.1 hpassed
    have hcalled : w.Covers { m with stack := m.stack.push callee ++ args } := by
      apply hm.withStack
      intro v hv
      rcases Array.mem_append.1 hv with hbelow | harg
      · rcases Array.mem_push.1 hbelow with hold | rfl
        · exact hm.state.stack v hold
        · exact hcallee
      · exact knows_array.1 hargs v harg
    refine Ends.final (Ends.throwing (fun _ => knows_plain rfl) ?_
      (runs_callValue horderly hcallee args.size _ hcalled))
    intro u v hu huv
    exact Trans.trans hu (Trans.trans huv (Std.Refl.refl (r := Reaches host) v))
  | instruction => exact Ends.final (runs_instruction horderly m hm)
  | takeResult => exact Ends.final (Keeps.lift keeps_takeResult m hm)
  | reset => exact ⟨w, hstay (le_refl w), hm.reset⟩

end World

variable {host : Host} {settings : Settings} {m : Machine} {g : Births}

/-- An action of a sound and live machine can be accounted for. -/
theorem Sound.act (horderly : host.Orderly) (hsound : m.Sound) (hlive : Live m g) {a : Activity}
    (hproper : a.Proper m) :
    (a.perform host m).Sound ∧ ∃ τ created, Stretch.Through host ⟨m, g, a.passed⟩ τ ∧
      τ.start.heap.Grows created (a.perform host m).heap ∧
      Live (a.perform host m) (τ.at created (a.perform host m)) := by
  have hm := World.covers_start (σ := ⟨m, g, a.passed⟩) hsound hlive hproper.2
  obtain ⟨w, hreaches, hw⟩ := hm.act horderly fun r hr => Or.inr (Or.inl hr)
  exact ⟨hw.sound, w.stretch, w.created, hreaches.through, hw.heap.grows, hw.live⟩

/-- An action keeps a sound machine kempt. -/
theorem Kempt.act (hk : m.Kempt) (horderly : host.Orderly) (hsound : m.Sound) {a : Activity}
    (hproper : a.Proper m) : (a.perform host m).Kempt := by
  have hm := World.covers_start (σ := ⟨m, .initial m, a.passed⟩) hsound (live_initial hsound)
    hproper.2
  obtain ⟨w, hreaches, hw⟩ := hm.act horderly fun r hr => Or.inr (Or.inl hr)
  exact hw.state.kempt (hreaches.kempt hk)

/-- A machine that comes up is sound. -/
theorem Reached.sound (horderly : host.Orderly) (hreached : Reached host settings m) : m.Sound := by
  induction hreached with
  | new => exact sound_new settings
  | request _ q hproper ih => exact (ih.request (live_initial ih) hproper).1
  | collect _ ih => exact ih.collect
  | act _ a hproper ih => exact (ih.act horderly (live_initial ih) hproper).1

/-- Whatever the sequence of requests, collections and actions, a session can be accounted for, and
in the end every held reference leads to what it was created for. -/
theorem reached_live (horderly : host.Orderly) (hreached : Reached host settings m) :
    ∃ g, Accounted host settings m g ∧ Live m g := by
  suffices hall : m.Sound ∧ ∃ g, Accounted host settings m g ∧ Live m g from hall.2
  induction hreached with
  | new =>
    have hlive := live_initial (sound_new settings)
    exact ⟨sound_new settings, _, .new hlive, hlive⟩
  | request _ q hproper ih =>
    obtain ⟨hsound, g, haccounted, hlive⟩ := ih
    obtain ⟨hnext, created, hgrows, hafter⟩ := hsound.request hlive hproper
    exact ⟨hnext, _, .request haccounted q hproper hgrows hafter, hafter⟩
  | collect _ ih =>
    obtain ⟨hsound, g, haccounted, hlive⟩ := ih
    have hafter := hlive.collect hsound
    exact ⟨hsound.collect, _, .collect haccounted hafter, hafter⟩
  | act _ a hproper ih =>
    obtain ⟨hsound, g, haccounted, hlive⟩ := ih
    obtain ⟨hnext, τ, created, hthrough, hgrows, hafter⟩ := hsound.act horderly hlive hproper
    exact ⟨hnext, _, .act haccounted a hproper hthrough hgrows hafter, hafter⟩

/-- A script that makes an array, after a collection. -/
theorem reached_live_arrayScript :
    let script := ((({} : Blob).pushOp .pushOne 1).pushOp .makeArray 1).pushShort 1 1
    let host := Host.stock .closed
    ∃ g, Accounted host {} (run host 10 (.script script) (Machine.new {}).collect.2).2 g ∧
      Live (run host 10 (.script script) (Machine.new {}).collect.2).2 g := by
  intro script host
  refine reached_live Host.orderly_stock (Reached.run (.collect .new) 10 fun v hv => ?_)
  exact absurd hv (Array.not_mem_empty v)

end ScriptMachine.Machine
