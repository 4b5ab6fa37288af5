import ScriptMachine.Proofs.Machine.Footing.Footprint

/-!
Shapes of operations. An operation reads its operands from the stream first; then the action that
carries it out says what footprint it leaves.
-/

namespace ScriptMachine.Machine

open World

variable {α : Type} {host : Host} {m m' p q : Machine} {f : Frame} {rest : List Frame} {op : Opcode}
  {slot count ip : Nat}

theorem Spares.of_atOffset (h : (m.atOffset ip).Spares m') : m.Spares m' := ⟨h.1, h.2⟩

theorem Works.touch {e : EStateM.Result Signal Machine α} (h : Works count none m e)
    (touched : Option Nat) : Works count touched m e := by
  cases e with
  | ok a m' => exact ⟨h.1, h.2.1, h.2.2.touch⟩
  | error s m' => cases s <;> exact h

/-! Shapes of operations. -/

theorem prints_final {s : Signal} (hs : s.isRaised = false) (q : Machine) :
    Prints m (.error s q) := by
  cases s with
  | raised e => cases hs
  | _ => trivial

/-- An operation that fails ends the run. -/
theorem prints_fails {x : Exec Unit} {s : Signal} (hs : s.isRaised = false) (hx : x p = .error s q) :
    Prints m (proceed x p) := by
  unfold proceed
  rw [bind_of_error hx]
  exact prints_final hs q

/-- An operation that reads its operand first. -/
theorem prints_reads {width : Nat} {x : Exec α} {read : Blob → Nat → Option α}
    {g : α → Exec (Option Ending)} (hframes : m.frames = f :: rest) (hx : Reads x read width)
    (hg : ∀ a, read f.proto.blob (f.ip + 1) = some a →
      Prints m (g a (m.atOffset (f.ip + 1 + width)))) :
    Prints m ((x >>= g) (m.atOffset (f.ip + 1))) := by
  have hmoved := frames_atOffset hframes (f.ip + 1)
  rcases hx _ _ _ hmoved with ⟨a, ha, hok⟩ | ⟨-, ip, offset, d, herror⟩
  · rw [bind_of_ok hok, atOffset_atOffset]
    exact hg a ha
  · rw [bind_of_error herror]
    trivial

theorem prints_operand {width : Nat} {x : Exec α} {read : Blob → Nat → Option α}
    {g : α → Exec Unit} (hframes : m.frames = f :: rest) (hx : Reads x read width)
    (hg : ∀ a, read f.proto.blob (f.ip + 1) = some a →
      Prints m (proceed (g a) (m.atOffset (f.ip + 1 + width)))) :
    Prints m (proceed (x >>= g) (m.atOffset (f.ip + 1))) := by
  have hbind : proceed (x >>= g) = x >>= fun a => proceed (g a) := bind_assoc x g _
  rw [hbind]
  exact prints_reads hframes hx hg

/-- A constant and a byte behind it are read first. -/
theorem prints_constantByte {g : Value → UInt8 → Exec Unit} (hframes : m.frames = f :: rest)
    (hg : ∀ v b, f.proto.blob.byteAt? (f.ip + 3) = some b →
      Prints m (proceed (g v b) (m.atOffset (f.ip + 4)))) :
    Prints m (proceed (fetchConstant >>= fun v => fetchByte >>= g v) (m.atOffset (f.ip + 1))) := by
  have hpair : Prints m (proceed ((do
      let v ← fetchConstant
      let b ← fetchByte
      return (v, b)) >>= fun p => g p.1 p.2) (m.atOffset (f.ip + 1))) := by
    refine prints_operand hframes reads_constantByte fun p hp => ?_
    obtain ⟨v, -, hp⟩ := Option.bind_eq_some_iff.1 hp
    obtain ⟨b, hb, hp⟩ := Option.bind_eq_some_iff.1 hp
    obtain rfl := Option.some.inj hp
    exact hg v b hb
  simpa only [bind_assoc, pure_bind] using hpair

/-- An operation that works on top of the stack, and perhaps on one slot below. -/
theorem prints_works {x : Exec Unit} (hop : m.opcode? = some op) (hstays : op.departs = false)
    (hother : op ≠ .upvalueSet ∧ op ≠ .makeClosure)
    (hx : Works op.pushes m.touched? (m.atOffset ip) (x (m.atOffset ip)))
    (hassigned : ∀ a m', x (m.atOffset ip) = .ok a m' →
      ∀ s ∈ m.assignment?, m'.stack[s.1]? = some s.2)
    (hreplaced : ∀ a m', x (m.atOffset ip) = .ok a m' →
      ∀ slot ∈ m.replaced?, m'.stack.size ≤ slot + 1) :
    Prints m (proceed x (m.atOffset ip)) := by
  unfold proceed
  cases hres : x (m.atOffset ip) with
  | ok a m' =>
    rw [hres] at hx
    rw [bind_of_ok hres]
    obtain ⟨hspares, hlength, hrests⟩ := hx
    rw [length_frames_atOffset] at hlength
    exact .works hop hstays hlength hspares.of_atOffset hrests (hassigned a m' hres)
      (hreplaced a m' hres) (fun heq => absurd heq hother.1) hother.2
  | error s q =>
    rw [hres] at hx
    rw [bind_of_error hres]
    cases s with
    | raised e => exact ⟨hx.1.of_atOffset, hx.2.touch⟩
    | _ => trivial

theorem departs_of_isSimple (hsimple : op.isSimple = true) : op.departs = false := by
  cases op <;> first | rfl | cases hsimple

theorem other_of_isSimple (hsimple : op.isSimple = true) :
    op ≠ .upvalueSet ∧ op ≠ .makeClosure := by
  constructor <;> rintro rfl <;> cases hsimple

theorem assignment?_of_isSimple (hop : m.opcode? = some op) (hsimple : op.isSimple = true) :
    m.assignment? = none := by
  unfold assignment?
  rw [hop]
  cases op <;> first | rfl | cases hsimple

theorem replaced?_eq_none (hop : m.opcode? = some op) (hother : op ≠ .stringify ∧ op ≠ .getSuper) :
    m.replaced? = none := by
  unfold replaced?
  rw [hop]
  split
  · rename_i heq
    exact absurd (Option.some.inj heq) hother.1
  · rename_i heq
    exact absurd (Option.some.inj heq) hother.2
  · rfl

theorem replaced?_of_isSimple (hop : m.opcode? = some op) (hsimple : op.isSimple = true) :
    m.replaced? = none := by
  refine replaced?_eq_none hop ⟨?_, ?_⟩ <;> rintro rfl <;> cases hsimple

theorem prints_onTop {x : Exec Unit} (hop : m.opcode? = some op) (hsimple : op.isSimple = true)
    (hx : OnTop op.pushes x) : Prints m (proceed x (m.atOffset ip)) := by
  refine prints_works hop (departs_of_isSimple hsimple) (other_of_isSimple hsimple)
    ((hx _).touch _) (fun _ _ _ s hs => ?_) fun _ _ _ s hs => ?_
  · rw [assignment?_of_isSimple hop hsimple] at hs
    cases hs
  · rw [replaced?_of_isSimple hop hsimple] at hs
    cases hs

/-- An operation that replaces one value, which is on top then. -/
theorem prints_replaces {x : Exec Unit} (hop : m.opcode? = some op) (hstays : op.departs = false)
    (hpushes : op.pushes = 0) (hnone : m.assignment? = none) (hreach : m.reach? = none)
    (hslot : m.replaced? = some slot) (hx : Replaces slot (m.atOffset ip) (x (m.atOffset ip))) :
    Prints m (proceed x (m.atOffset ip)) := by
  have htouched : m.touched? = some slot := by
    unfold touched? callee?
    rw [hnone, hreach, hslot]
    rfl
  have hother : op ≠ .upvalueSet ∧ op ≠ .makeClosure := by
    constructor <;> rintro rfl <;> rw [replaced?_eq_none hop (by simp)] at hslot <;> cases hslot
  refine prints_works hop hstays hother ?_ (fun _ _ _ s hs => ?_) fun a m' hres s hs => ?_
  · rw [htouched, hpushes]
    exact hx.works
  · rw [hnone] at hs
    cases hs
  · rw [hslot] at hs
    obtain rfl := Option.some.inj hs
    rw [hres] at hx
    exact hx.2.2.2

/-- A call, after values above the arguments were taken off. -/
theorem prints_invokes {x : Exec Unit} (hop : m.opcode? = some op) (hsimple : op.isSimple = true)
    (hpushes : op.pushes = 0)
    (hslot : slot = p.stack.size - (count + 1)) (hcallee : m.callee? = some slot)
    (hspares : m.Spares p) (hlength : p.frames.length = m.frames.length)
    (hrests : Rests 0 none m.stack p.stack) (hsize : p.stack.size = m.stack.size - op.supers)
    (hx : Invokes slot count p (x (m.atOffset ip))) :
    Prints m (proceed x (m.atOffset ip)) := by
  have hstays := departs_of_isSimple hsimple
  have hnone := assignment?_of_isSimple hop hsimple
  have htouched : m.touched? = some slot := by
    unfold touched?
    rw [hnone, hcallee]
    rfl
  unfold proceed
  cases hres : x (m.atOffset ip) with
  | ok a m' =>
    rw [hres] at hx
    rw [bind_of_ok hres]
    rcases hx with ⟨hs, hl, hr⟩ | ⟨⟨g, hg, rfl, harity, hstay⟩, hroom, hs⟩
    · refine .works hop hstays (hl.trans hlength) (hspares.trans hs) ?_ (fun s hs => ?_)
        (fun s hs => ?_) (fun heq => absurd heq (other_of_isSimple hsimple).1)
        (other_of_isSimple hsimple).2
      · rw [htouched, hpushes]
        exact hrests.touch.trans hr
      · rw [hnone] at hs
        cases hs
      · rw [replaced?_of_isSimple hop hsimple] at hs
        cases hs
    · have hlonger : m'.frames.length = m.frames.length + 1 := by
        rw [hg, List.length_cons, hlength]
      refine .calls hop hstays hg hlonger hcallee (hspares.trans hs) (by omega) (by omega)
        fun i hi hne => ?_
      rw [hstay i (by omega) (by omega) hne]
      exact hrests i (by omega) nofun
  | error s q =>
    rw [hres] at hx
    rw [bind_of_error hres]
    cases s with
    | raised e =>
      refine ⟨hspares.trans hx.1, ?_⟩
      rw [hcallee]
      exact hrests.touch.trans hx.2
    | _ => trivial

theorem prints_callsTop {x : Exec Unit} (hframes : m.frames = f :: rest)
    (hop : m.opcode? = some op) (hsimple : op.isSimple = true) (hpushes : op.pushes = 0)
    (hsupers : op.supers = 0) (hreach : m.reach? = some (count + 1)) (hx : CallsTop count x) :
    Prints m (proceed x (m.atOffset ip)) := by
  have hcallee : m.callee? = some (m.stack.size - (count + 1)) := by
    unfold callee?
    rw [hreach]
    rfl
  have hsize : (m.atOffset ip).stack.size = m.stack.size - op.supers := by
    rw [hsupers]
    rfl
  have hspares : m.Spares (m.atOffset ip) := ⟨rfl, .refl _ _⟩
  have hunder : (m.atOffset ip).frames ≠ [] := by
    rw [frames_atOffset hframes]
    nofun
  have hslot : m.stack.size - (count + 1) = (m.atOffset ip).stack.size - (count + 1) := rfl
  exact prints_invokes hop hsimple hpushes hslot hcallee hspares
    (length_frames_atOffset m ip) (.refl m.stack) hsize (hx _ hunder)

theorem prints_popping {x : Exec Unit} (hframes : m.frames = f :: rest) (hop : m.opcode? = some op)
    (hsimple : op.isSimple = true) (hpushes : op.pushes = 0) (hsupers : op.supers = 1)
    (hreach : m.reach? = some (count + 2))
    (hx : ∀ m : Machine, m.frames ≠ [] → Invokes (m.stack.size - (count + 2)) count
      { m with stack := m.stack.pop } (x m)) :
    Prints m (proceed x (m.atOffset ip)) := by
  have hcallee : m.callee? = some (m.stack.size - (count + 2)) := by
    unfold callee?
    rw [hreach]
    rfl
  have hsize : m.stack.pop.size = m.stack.size - op.supers := by
    rw [hsupers]
    exact Array.size_pop
  have hslot : m.stack.size - (count + 2) = m.stack.pop.size - (count + 1) := by
    rw [hsize, hsupers]
    omega
  let popped : Machine := { m.atOffset ip with stack := m.stack.pop }
  have hunder : (m.atOffset ip).frames ≠ [] := by
    rw [frames_atOffset hframes]
    nofun
  have hpopped : Invokes (m.stack.size - (count + 2)) count popped (x (m.atOffset ip)) := hx _ hunder
  have hspares : m.Spares popped := ⟨rfl, .refl _ _⟩
  exact prints_invokes hop hsimple hpushes hslot hcallee hspares
    (length_frames_atOffset m ip) (.pop m.stack) hsize hpopped

end ScriptMachine.Machine
