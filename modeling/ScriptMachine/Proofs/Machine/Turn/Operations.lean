import ScriptMachine.Proofs.Machine.Turn

/-!
The operations that do not return. Each ends in a turn, in an exception that it raises after a quiet
change, or in a signal; and it blames the stream only for an operand that is not as it should be.
-/

namespace ScriptMachine.Machine

variable {host : Host} {m m' : Machine} {f : Frame} {rest : List Frame}

/-! Instructions that move the innermost call. -/

theorem pop_cases (m : Machine) :
    (∃ v, m.stack.back? = some v ∧ pop m = .ok v { m with stack := m.stack.pop }) ∨
      pop m = .error (.fault (.internal .stackUnderflow)) m := by
  unfold pop
  rw [get_bind]
  cases hv : m.stack.back? with
  | some v => exact Or.inl ⟨v, rfl, rfl⟩
  | none => exact Or.inr rfl

/-- What an operation ends in before the exception it raises is thrown. -/
def Ends (host : Host) (m : Machine) (f : Frame) :
    EStateM.Result Signal Machine (Option Ending) → Prop
  | .error (.raised _) q => ∃ ip, Quiet host (m.atOffset ip) q
  | result => Outcome host m f result

theorem Outcome.ends {result : EStateM.Result Signal Machine (Option Ending)}
    (h : Outcome host m f result) : Ends host m f result := by
  unfold Ends
  split
  · cases h with
    | failed hquiet hkept hblame hfinal => cases hfinal
  · exact h

theorem Turn.ends (h : Turn host m m') : Ends host m f (.ok none m') := Outcome.turned h

/-- An action that ends with a signal after a quiet change. -/
theorem ends_error {s : Signal} {ip : Nat} {q : Machine} (hquiet : Quiet host (m.atOffset ip) q)
    (hblame : s.blamesCode = true → ¬ m.Runnable f) : Ends host m f (.error s q) := by
  unfold Ends
  split
  · rename_i result e q' hresult
    cases hresult
    exact ⟨ip, hquiet⟩
  · rename_i result hnot
    have hfinal : s.isRaised = false := by
      cases s with
      | raised e => exact absurd rfl (hnot e q)
      | _ => rfl
    exact .failed hquiet (.refl q) hblame hfinal

theorem not_runnable_of_unreadable {op : Opcode} (hop : m.opcode? = some op)
    (hunreadable : op.layout.isReadable f.proto.blob (f.ip + 1) = false) : ¬ m.Runnable f := by
  intro hrunnable
  obtain ⟨op', hop', hreadable⟩ := hrunnable.reads
  rw [hop] at hop'
  obtain rfl := Option.some.inj hop'
  rw [hreadable] at hunreadable
  cases hunreadable

/-- An operation that reads its operand first. -/
theorem ends_reads {α : Type} {op : Opcode} {width : Nat} {x : Exec α}
    {read : Blob → Nat → Option α} {g : α → Exec (Option Ending)}
    (hframes : m.frames = f :: rest) (hop : m.opcode? = some op) (hx : Reads x read width)
    (hreadable : op.layout.isReadable f.proto.blob (f.ip + 1) =
      (read f.proto.blob (f.ip + 1)).isSome)
    (hg : ∀ a, read f.proto.blob (f.ip + 1) = some a →
      Ends host m f (g a (m.atOffset (f.ip + 1 + width)))) :
    Ends host m f ((x >>= g) (m.atOffset (f.ip + 1))) := by
  have hmoved := frames_atOffset hframes (f.ip + 1)
  rcases hx _ _ _ hmoved with ⟨a, ha, hok⟩ | ⟨hnone, ip, offset, d, herror⟩
  · rw [bind_of_ok hok, atOffset_atOffset]
    exact hg a ha
  · rw [bind_of_error herror, atOffset_atOffset]
    have hfails : op.layout.isReadable f.proto.blob (f.ip + 1) = false := by
      rw [hreadable, hnone]
      rfl
    exact ends_error .refl fun _ => not_runnable_of_unreadable hop hfails

theorem ends_operand {α : Type} {op : Opcode} {width : Nat} {x : Exec α}
    {read : Blob → Nat → Option α} {g : α → Exec Unit}
    (hframes : m.frames = f :: rest) (hop : m.opcode? = some op) (hx : Reads x read width)
    (hreadable : op.layout.isReadable f.proto.blob (f.ip + 1) =
      (read f.proto.blob (f.ip + 1)).isSome)
    (hg : ∀ a, read f.proto.blob (f.ip + 1) = some a →
      Ends host m f (proceed (g a) (m.atOffset (f.ip + 1 + width)))) :
    Ends host m f (proceed (x >>= g) (m.atOffset (f.ip + 1))) := by
  have hbind : proceed (x >>= g) = x >>= fun a => proceed (g a) := bind_assoc x g _
  rw [hbind]
  exact ends_reads hframes hop hx hreadable hg

/-- An operation that takes a value off the stack behind its operand. -/
theorem ends_pop {ip : Nat} {g : Value → Exec Unit}
    (hg : ∀ v, m.stack.back? = some v →
      Ends host m f (proceed (g v) { m.atOffset ip with stack := m.stack.pop })) :
    Ends host m f (proceed (pop >>= g) (m.atOffset ip)) := by
  have hbind : proceed (pop >>= g) = pop >>= fun v => proceed (g v) := bind_assoc pop g _
  rw [hbind]
  rcases pop_cases (m.atOffset ip) with ⟨v, hv, hok⟩ | herror
  · rw [bind_of_ok hok]
    exact hg v hv
  · rw [bind_of_error herror]
    exact ends_error .refl nofun

theorem ends_plain {op : Opcode} (hframes : m.frames = f :: rest) (hop : m.opcode? = some op)
    (hplain : op.isPlain = true) :
    Ends host m f (execute host f.ip op (m.atOffset (f.ip + 1))) := by
  have hmoved := frames_atOffset hframes (f.ip + 1)
  have hwidth : f.ip + 1 + (op.layout.width 0 - 1) = f.ip + op.layout.width 0 := by
    have hpos : 1 ≤ op.layout.width 0 := by cases op.layout <;> decide
    omega
  rcases performs_execute f.ip hplain _ _ _ hmoved with
    ⟨-, hcarried⟩ | ⟨hunreadable, ip, offset, d, herror⟩
  · dsimp only at hcarried
    rw [atOffset_atOffset, hwidth] at hcarried
    revert hcarried
    cases execute host f.ip op (m.atOffset (f.ip + 1)) with
    | ok e m' =>
      rintro ⟨rfl, hquiet | ⟨base, hcalled⟩⟩
      · exact Turn.ends (.goes hframes (.falls hop (Or.inl hplain)) hquiet)
      · exact Turn.ends (.calls hframes hop hplain hcalled)
    | error s m' =>
      rintro ⟨hquiet, hblame⟩
      exact ends_error hquiet fun h => by rw [hblame] at h; cases h
  · rw [herror, atOffset_atOffset]
    exact ends_error .refl fun _ => not_runnable_of_unreadable hop hunreadable

theorem ends_jump (hframes : m.frames = f :: rest) (hop : m.opcode? = some .jump) :
    Ends host m f (execute host f.ip .jump (m.atOffset (f.ip + 1))) := by
  refine ends_operand hframes hop reads_fetchShort rfl fun n hn => ?_
  have hmoved := frames_atOffset hframes (f.ip + 3)
  unfold proceed
  rw [bind_of_ok (jumpBy_eq hmoved _), atOffset_atOffset]
  exact Turn.ends (.goes hframes (.jumps hop rfl hn) .refl)

theorem ends_jumpIfFalse (hframes : m.frames = f :: rest) (hop : m.opcode? = some .jumpIfFalse) :
    Ends host m f (execute host f.ip .jumpIfFalse (m.atOffset (f.ip + 1))) := by
  refine ends_operand hframes hop reads_fetchShort rfl fun n hn => ends_pop fun v _ => ?_
  let popped : Machine := { m.atOffset (f.ip + 3) with stack := m.stack.pop }
  have hmoved : popped.frames = { f with ip := f.ip + 3 } :: rest := frames_atOffset hframes _
  show Ends host m f (proceed (do if (← get).heap.isFalsy v then jumpBy n.toNat) popped)
  unfold proceed
  rw [bind_assoc, get_bind]
  by_cases hfalsy : popped.heap.isFalsy v = true
  · rw [if_pos hfalsy, bind_of_ok (jumpBy_eq hmoved _)]
    have heq : popped.atOffset (f.ip + 3 + n.toNat) =
        { m.atOffset (f.ip + 3 + n.toNat) with stack := m.stack.pop } := by
      rw [← atOffset_atOffset m (f.ip + 3)]
      rfl
    rw [heq]
    exact Turn.ends (.goes hframes (.jumps hop rfl hn) (.stack .refl _))
  · rw [if_neg hfalsy]
    exact Turn.ends (.goes hframes (.falls hop (Or.inr rfl)) (.stack .refl _))

theorem ends_loop (hframes : m.frames = f :: rest) (hop : m.opcode? = some .loop) :
    Ends host m f (execute host f.ip .loop (m.atOffset (f.ip + 1))) := by
  refine ends_operand hframes hop reads_fetchShort rfl fun n hn => ?_
  have hmoved := frames_atOffset hframes (f.ip + 3)
  unfold proceed jumpBack
  rw [bind_assoc, bind_of_ok (frame_eq hmoved)]
  by_cases hle : n.toNat ≤ f.ip + 3
  · rw [if_pos hle, bind_of_ok (jumpTo_eq hmoved _), atOffset_atOffset]
    exact Turn.ends (.goes hframes (.loops hop rfl hn hle) .refl)
  · rw [if_neg hle]
    exact ends_error .refl fun _ hrunnable => hle (hrunnable.loops hop n hn)

theorem distance_mem (s : SwitchTable) (pool : Pool) (v : Value) :
    s.distance pool v ∈ s.distances := by
  unfold SwitchTable.distance SwitchTable.distances
  split
  · rename_i x hx
    obtain ⟨e, he, hvalue⟩ := Option.map_eq_some_iff.1 hx
    have hmem : Binary64.toCount x ∈
        s.cases.entries.filterMap fun e => e.value.number?.map Binary64.toCount := by
      refine List.mem_filterMap.2 ⟨e, Table.mem_entries_of_found he, ?_⟩
      rw [hvalue]
      rfl
    exact List.mem_append_left _ (List.mem_append_left _ hmem)
  · cases s.default? with
    | none => simp
    | some d => simp

theorem ends_switch (hframes : m.frames = f :: rest) (hop : m.opcode? = some .switch) :
    Ends host m f (execute host f.ip .switch (m.atOffset (f.ip + 1))) := by
  refine ends_operand hframes hop reads_fetchConstant rfl fun table htable => ?_
  refine ends_pop fun v _ => ?_
  let popped : Machine := { m.atOffset (f.ip + 3) with stack := m.stack.pop }
  have hmoved : popped.frames = { f with ip := f.ip + 3 } :: rest := frames_atOffset hframes _
  show Ends host m f (proceed (jumpToCase table v) popped)
  unfold proceed jumpToCase
  rw [bind_assoc, get_bind]
  split
  · rename_i s hs
    rw [bind_of_ok (jumpBy_eq hmoved _)]
    have heq (d : Nat) : popped.atOffset (f.ip + 3 + d) =
        { m.atOffset (f.ip + 3 + d) with stack := m.stack.pop } := by
      rw [← atOffset_atOffset m (f.ip + 3)]
      rfl
    rw [heq]
    exact Turn.ends (.goes hframes (.switches hop htable hs (distance_mem s _ v)) (.stack .refl _))
  · rename_i hother
    refine ends_error (.stack .refl _) fun _ hrunnable => ?_
    obtain ⟨s, hs⟩ := hrunnable.switches hop table htable
    exact hother s hs

/-! Closures. -/

theorem captureSlot_atOffset (m : Machine) (slot ip : Nat) :
    (m.atOffset ip).captureSlot slot =
      ((m.captureSlot slot).1, (m.captureSlot slot).2.atOffset ip) := by
  unfold captureSlot atOffset
  dsimp only
  split <;> rfl

theorem frames_captureSlot (m : Machine) (slot : Nat) :
    (m.captureSlot slot).2.frames = m.frames := by
  unfold captureSlot
  dsimp only
  split <;> rfl

theorem frameUpvalue_cases (hframes : m.frames = f :: rest) (index : Nat) :
    (∃ c r, m.heap.get? f.closure = some (.closure c) ∧ c.upvalues[index]? = some r ∧
        frameUpvalue index m = .ok r m) ∨
      ∃ b, frameUpvalue index m = .error (.fault (.internal b)) m ∧
        (Signal.fault (.internal b)).blamesCode = false := by
  unfold frameUpvalue
  rw [bind_of_ok (frame_eq hframes), get_bind]
  cases m.heap.get? f.closure with
  | none => exact Or.inr ⟨_, rfl, rfl⟩
  | some o =>
    cases o with
    | closure c =>
      cases hr : c.upvalues[index]? with
      | some r =>
        refine Or.inl ⟨c, r, rfl, hr, ?_⟩
        simp only [hr]
        rfl
      | none =>
        refine Or.inr ⟨.upvalueIndex index, ?_, rfl⟩
        simp only [hr]
        rfl
    | _ => exact Or.inr ⟨_, rfl, rfl⟩

theorem size_le_of_byteAt? {b : Blob} {i : Nat} (h : b.byteAt? i = none) : b.size ≤ i := by
  by_contra hlt
  obtain ⟨byte, hbyte⟩ := b.byteAt?_eq_some i (by omega)
  rw [h] at hbyte
  cases hbyte

theorem size_le_of_shortAt? {b : Blob} {i : Nat} (h : b.shortAt? i = none) : b.size ≤ i + 1 := by
  by_contra hlt
  obtain ⟨high, hhigh⟩ := b.byteAt?_eq_some i (by omega)
  obtain ⟨low, hlow⟩ := b.byteAt?_eq_some (i + 1) (by omega)
  simp [Blob.shortAt?, hhigh, hlow] at h

/-- Reads one capture and finds its cell. -/
def captureNext (base : Nat) : Exec Ref := do
  let flag ← fetchByte
  let index ← fetchShort
  if flag != 0 then modifyGet fun m => m.captureSlot (base + index.toNat)
  else frameUpvalue index.toNat

theorem captureAll_succ (base count : Nat) : captureAll base (count + 1) = (do
    let cell ← captureNext base
    let cells ← captureAll base count
    return cell :: cells) := by
  rw [captureAll, captureNext, bind_assoc]
  refine bind_congr fun flag => ?_
  rw [bind_assoc]
  refine bind_congr fun index => ?_
  split <;> rfl

/-- What comes of reading one capture. -/
inductive Capturing (m : Machine) (f : Frame) (base : Nat) :
    EStateM.Result Signal Machine Ref → Prop where
  /-- The open cell of a variable of the running call. -/
  | own {flag : UInt8} {index : UInt16} (hflag : f.proto.blob.byteAt? f.ip = some flag)
      (hset : flag ≠ 0) (hindex : f.proto.blob.shortAt? (f.ip + 1) = some index) :
      Capturing m f base (.ok (m.captureSlot (base + index.toNat)).1
        ((m.captureSlot (base + index.toNat)).2.atOffset (f.ip + 3)))
  /-- A cell that the running closure has. -/
  | shared {index : UInt16} {c : Closure} {r : Ref} (hflag : f.proto.blob.byteAt? f.ip = some 0)
      (hindex : f.proto.blob.shortAt? (f.ip + 1) = some index)
      (hclosure : m.heap.get? f.closure = some (.closure c))
      (hcell : c.upvalues[index.toNat]? = some r) :
      Capturing m f base (.ok r (m.atOffset (f.ip + 3)))
  /-- The stream is blamed only if it ends within the capture. -/
  | fails {s : Signal} {ip : Nat} (hblame : s.blamesCode = true → f.proto.blob.size < f.ip + 3) :
      Capturing m f base (.error s (m.atOffset ip))

theorem capturing_captureNext (hframes : m.frames = f :: rest) (base : Nat) :
    Capturing m f base (captureNext base m) := by
  unfold captureNext
  rcases reads_fetchByte m f rest hframes with ⟨flag, hflag, hok⟩ | ⟨hnone, ip, offset, d, herror⟩
  swap
  · rw [bind_of_error herror]
    refine .fails fun _ => ?_
    have hsize := size_le_of_byteAt? hnone
    omega
  have hmoved := frames_atOffset hframes (f.ip + 1)
  rw [bind_of_ok hok]
  rcases reads_fetchShort _ _ _ hmoved with ⟨index, hindex, hok'⟩ | ⟨hnone, ip, offset, d, herror⟩
  swap
  · rw [bind_of_error herror, atOffset_atOffset]
    refine .fails fun _ => ?_
    have hsize : f.proto.blob.size ≤ f.ip + 1 + 1 := size_le_of_shortAt? hnone
    omega
  rw [bind_of_ok hok', atOffset_atOffset]
  have hmoved := frames_atOffset hframes (f.ip + 3)
  by_cases hset : flag = 0
  · subst hset
    show Capturing m f base (frameUpvalue index.toNat (m.atOffset (f.ip + 3)))
    rcases frameUpvalue_cases hmoved index.toNat with ⟨c, r, hclosure, hcell, hr⟩ | ⟨b, hb, hblame⟩
    · rw [hr]
      exact .shared hflag hindex hclosure hcell
    · rw [hb]
      refine .fails fun h => ?_
      rw [hblame] at h
      cases h
  · rw [if_pos (bne_iff_ne.2 hset)]
    show Capturing m f base (.ok ((m.atOffset (f.ip + 3)).captureSlot (base + index.toNat)).1
      ((m.atOffset (f.ip + 3)).captureSlot (base + index.toNat)).2)
    rw [captureSlot_atOffset]
    exact .own hflag hset hindex

/-- The result of reading captures; the stream is blamed if it is too short. -/
def Captures (host : Host) (m : Machine) (f : Frame) (count : Nat) :
    EStateM.Result Signal Machine (List Ref) → Prop
  | .ok _ q => Quiet host (m.atOffset (f.ip + 3 * count)) q
  | .error s q => (∃ ip, Quiet host (m.atOffset ip) q) ∧
      (s.blamesCode = true → f.proto.blob.size < f.ip + 3 * count)

theorem captures_captureAll (hframes : m.frames = f :: rest) (base count : Nat) :
    Captures host m f count (captureAll base count m) := by
  induction count generalizing m f with
  | zero =>
    show Quiet host (m.atOffset f.ip) m
    rw [atOffset_self hframes]
    exact .refl
  | succ count ih =>
    -- What follows the cell of the first capture, which leaves the call three bytes further on.
    have hnext (cell : Ref) (q : Machine) (hq : q.frames = { f with ip := f.ip + 3 } :: rest)
        (hquiet : ∀ ip, Quiet host (m.atOffset ip) (q.atOffset ip)) :
        Captures host m f (count + 1) ((do
          let cells ← captureAll base count
          return cell :: cells : Exec (List Ref)) q) := by
      have hcaptures := ih hq
      revert hcaptures
      cases hresult : captureAll base count q with
      | ok cells q' =>
        intro hcaptures
        rw [bind_of_ok hresult]
        have hwidth : f.ip + 3 * (count + 1) = f.ip + 3 + 3 * count := by omega
        show Quiet host (m.atOffset (f.ip + 3 * (count + 1))) q'
        rw [hwidth]
        exact (hquiet _).trans hcaptures
      | error s q' =>
        rintro ⟨⟨ip, hcaptures⟩, hshort⟩
        rw [bind_of_error hresult]
        refine ⟨⟨ip, (hquiet ip).trans hcaptures⟩, fun hblame => ?_⟩
        have hsize : f.proto.blob.size < f.ip + 3 + 3 * count := hshort hblame
        omega
    rw [captureAll_succ]
    have hfirst := capturing_captureNext hframes base
    generalize hresult : captureNext base m = result at hfirst
    cases hfirst with
    | @own flag index hflag hset hindex =>
      rw [bind_of_ok hresult]
      refine hnext _ _ (frames_atOffset ((frames_captureSlot m _).trans hframes) _) fun ip => ?_
      have hne : (m.atOffset ip).frames ≠ [] := by
        rw [frames_atOffset hframes]
        nofun
      have hcapture : Quiet host (m.atOffset ip)
          ((m.atOffset ip).captureSlot (base + index.toNat)).2 := .capture .refl _ hne
      rw [captureSlot_atOffset] at hcapture
      rwa [atOffset_atOffset]
    | shared =>
      rw [bind_of_ok hresult]
      refine hnext _ _ (frames_atOffset hframes _) fun ip => ?_
      rw [atOffset_atOffset]
      exact .refl
    | @fails s ip hblame =>
      rw [bind_of_error hresult]
      refine ⟨⟨ip, .refl⟩, fun h => ?_⟩
      have hsize := hblame h
      omega

theorem ends_makeClosure (hframes : m.frames = f :: rest) (hop : m.opcode? = some .makeClosure) :
    Ends host m f (execute host f.ip .makeClosure (m.atOffset (f.ip + 1))) := by
  refine ends_operand hframes hop reads_fetchConstant rfl fun v hv => ?_
  let behind := m.atOffset (f.ip + 3)
  have hmoved : behind.frames = { f with ip := f.ip + 3 } :: rest := frames_atOffset hframes _
  have hbreach (hno : ¬ ∃ function proto, v = .ref function ∧
      m.heap.get? function = some (.function proto)) :
      Ends host m f (.error (.fault (.internal .closureOperand)) behind) := by
    refine ends_error .refl fun _ hrunnable => hno ?_
    obtain ⟨function, proto, hfunction, hproto, -⟩ := hrunnable.makes hop v hv
    exact ⟨function, proto, hfunction, hproto⟩
  cases v with
  | ref function =>
    show Ends host m f (proceed (closeOver function) behind)
    unfold proceed closeOver
    rw [bind_assoc, get_bind]
    split
    · rename_i proto hproto
      rw [bind_assoc, bind_of_ok (frame_eq hmoved), bind_assoc]
      have hcaptures : Captures host behind _ proto.captured
          (captureAll f.base proto.captured behind) := captures_captureAll hmoved _ _
      revert hcaptures
      cases hresult : captureAll f.base proto.captured behind with
      | ok upvalues q =>
        intro hquiet
        rw [bind_of_ok hresult]
        have hquiet' : Quiet host (m.atOffset (f.ip + 3 + 3 * proto.captured)) q := by
          rw [← atOffset_atOffset m (f.ip + 3)]
          exact hquiet
        exact Turn.ends (.makes hframes hop hv hproto hquiet')
      | error s q =>
        rintro ⟨⟨ip, hquiet⟩, hshort⟩
        rw [bind_of_error hresult]
        rw [atOffset_atOffset] at hquiet
        refine ends_error hquiet fun hblame hrunnable => ?_
        obtain ⟨function', proto', hfunction', hproto', hsize⟩ := hrunnable.makes hop _ hv
        obtain rfl := Value.ref.inj hfunction'
        have hsame : m.heap.get? function = some (.function proto) := hproto
        rw [hsame] at hproto'
        obtain rfl := Object.function.inj (Option.some.inj hproto')
        have hshort' : f.proto.blob.size < f.ip + 3 + 3 * proto.captured := hshort hblame
        omega
    · rename_i hother
      refine hbreach ?_
      rintro ⟨function', proto, hfunction, hget⟩
      obtain rfl := Value.ref.inj hfunction
      exact hother proto hget
  | nil => exact hbreach (by simp)
  | bool b => exact hbreach (by simp)
  | number x => exact hbreach (by simp)

/-! Regions. -/

/-- A constant and two addresses. -/
theorem reads_tryRegion : Reads (do
      let type ← fetchConstant
      let handler ← fetchShort
      let block ← fetchShort
      return (type, handler, block))
    (fun blob offset => (blob.constantAt? offset).bind fun type =>
      (blob.shortAt? (offset + 2)).bind fun handler =>
        (blob.shortAt? (offset + 2 + 2)).bind fun block => some (type, handler, block)) 6 :=
  reads_fetchConstant.bind fun type => reads_fetchShort.bind fun handler =>
    reads_fetchShort.bind fun block => reads_pure (type, handler, block)

theorem ends_enterTry (hframes : m.frames = f :: rest) (hop : m.opcode? = some .enterTry) :
    Ends host m f (execute host f.ip .enterTry (m.atOffset (f.ip + 1))) := by
  let enter (p : Value × UInt16 × UInt16) : Exec Unit := do
    let m ← get
    let frameDepth := m.frames.length
    let nested := (m.regions.takeWhile fun r => r.frameDepth == frameDepth).length
    if m.settings.maxTryDepth ≤ nested then misuse .tooManyRegions
    else
      let filter? := if p.2.1 = 0 || p.1.isNil then none else some (m.filterClass p.1)
      let region : Region :=
        { handler? := address? p.2.1
          finally? := address? p.2.2
          filter?
          stackDepth := m.stack.size
          frameDepth }
      set { m with regions := region :: m.regions }
  have henter : enterTry = (do
      let type ← fetchConstant
      let handler ← fetchShort
      let block ← fetchShort
      return (type, handler, block)) >>= enter := by
    simp only [bind_assoc, pure_bind]
    rfl
  show Ends host m f (proceed enterTry (m.atOffset (f.ip + 1)))
  rw [henter]
  refine ends_operand hframes hop reads_tryRegion ?_ fun p hp => ?_
  · show ((f.proto.blob.constantAt? (f.ip + 1)).isSome &&
      (f.proto.blob.shortAt? (f.ip + 1 + 2)).isSome &&
        (f.proto.blob.shortAt? (f.ip + 1 + 4)).isSome) = _
    cases f.proto.blob.constantAt? (f.ip + 1) with
    | none => rfl
    | some type =>
      cases f.proto.blob.shortAt? (f.ip + 1 + 2) with
      | none => rfl
      | some handler => cases f.proto.blob.shortAt? (f.ip + 1 + 4) <;> rfl
  · obtain ⟨type, -, hp⟩ := Option.bind_eq_some_iff.1 hp
    obtain ⟨handler, hhandler, hp⟩ := Option.bind_eq_some_iff.1 hp
    obtain ⟨block, hblock, hp⟩ := Option.bind_eq_some_iff.1 hp
    obtain rfl := Option.some.inj hp
    let behind := m.atOffset (f.ip + 7)
    have hdepth : behind.frames.length = m.frames.length := length_frames_atOffset m _
    show Ends host m f (proceed (enter (type, handler, block)) behind)
    unfold proceed
    simp only [enter]
    rw [bind_assoc, get_bind]
    by_cases hmany : behind.settings.maxTryDepth ≤
        (behind.regions.takeWhile fun r => r.frameDepth == behind.frames.length).length
    · rw [if_pos hmany]
      exact ends_error (quiet_makeException behind _ _) nofun
    · rw [if_neg hmany]
      rw [hdepth] at hmany
      exact Turn.ends (.enters hframes hop hhandler hblock ⟨rfl, rfl, hdepth⟩
        (Nat.lt_of_not_le hmany))

theorem resumeAt_length (frames : List Frame) (ip : Nat) :
    resumeAt frames frames.length ip = frames.modifyHead fun f => { f with ip } := by
  unfold resumeAt
  rw [Nat.sub_self, List.drop_zero]

theorem ends_popTry (hframes : m.frames = f :: rest) (hop : m.opcode? = some .popTry) :
    Ends host m f (execute host f.ip .popTry (m.atOffset (f.ip + 1))) := by
  let behind := m.atOffset (f.ip + 1)
  show Ends host m f (proceed popTry behind)
  unfold proceed popTry
  rw [bind_assoc, get_bind]
  cases hregions : m.regions with
  | nil =>
    have hsame : behind.regions = [] := hregions
    rw [hsame]
    exact ends_error .refl nofun
  | cons region older =>
    have hsame : behind.regions = region :: older := hregions
    have hturn : Turn host m _ := .pops hframes hop hregions
    rw [hsame]
    cases hfinally : region.finally? with
    | none =>
      rw [hfinally, resumeAt_length] at hturn
      dsimp only
      rw [hfinally]
      exact Turn.ends hturn
    | some block =>
      rw [hfinally, resumeAt_length] at hturn
      dsimp only
      rw [hfinally]
      let left : Machine := { behind with regions := older }
      have hleft : left.frames = { f with ip := f.ip + 1 } :: rest := frames_atOffset hframes _
      show Ends host m f (((do
        let g ← frame
        pushCompletion (.resume g.ip)
        jumpTo block) >>= fun _ => pure none : Exec (Option Ending)) left)
      let pending : Pending :=
        { tryDepth := older.length, frameDepth := m.frames.length, completion := .resume (f.ip + 1) }
      let pushed := left.steer left.frames older (pending :: m.completions)
      have hpushed : pushed.frames = { f with ip := f.ip + 1 } :: rest := hleft
      have hpush : pushCompletion (.resume (f.ip + 1)) left = .ok () pushed := by
        have hdepth : left.frames.length = m.frames.length := length_frames_atOffset m _
        simp only [pushed, pending, ← hdepth]
        rfl
      rw [bind_assoc, bind_of_ok (frame_eq hleft), bind_assoc, bind_of_ok hpush,
        bind_of_ok (jumpTo_eq hpushed block)]
      have heq : pushed.atOffset block = behind.steer
          (m.frames.modifyHead fun f => { f with ip := block }) older (pending :: m.completions) := by
        have hmoved : (pushed.atOffset block).frames =
            m.frames.modifyHead fun f => { f with ip := block } := by
          rw [frames_atOffset hpushed, hframes]
          rfl
        rw [← hmoved]
        rfl
      rw [heq]
      exact Turn.ends hturn

end ScriptMachine.Machine
