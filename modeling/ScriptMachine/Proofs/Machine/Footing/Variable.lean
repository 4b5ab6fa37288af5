import ScriptMachine.Proofs.Machine.Footing.Shape

/-!
Variables. An assignment writes the slot of a variable or its cell, a closure finds the cells of
what it captures, and the variable on top is closed before it is dropped.
-/

namespace ScriptMachine.Machine

open World

variable {α : Type} {host : Host} {m m' p q : Machine} {f : Frame} {rest : List Frame} {op : Opcode}
  {slot count ip : Nat}

/-! Assignments. -/

theorem localSlot?_eq (hframes : m.frames = f :: rest) {n : UInt16}
    (hn : f.proto.blob.shortAt? (f.ip + 1) = some n) : m.localSlot? = some (f.base + n.toNat) := by
  unfold localSlot?
  rw [hframes, List.head?_cons, Option.bind_some, hn, Option.map_some]

theorem localSlot_eq (hframes : m.frames = f :: rest) (n : Nat) :
    localSlot n m = if f.base + n < m.stack.size then .ok (f.base + n) m
      else .error (.fault (.internal (.localSlot n))) m := by
  unfold localSlot
  rw [bind_of_ok (frame_eq hframes), get_bind]
  split <;> rfl

/-- The value on top and the slot that it is assigned to. -/
theorem touched?_of_assignment {s : Nat × Value} (h : m.assignment? = some s) :
    m.touched? = some s.1 := by
  unfold touched?
  rw [h]
  rfl

theorem getD_top {stack : Array Value} {v : Value} (hv : stack.back? = some v) :
    0 < stack.size ∧ stack.getD (stack.size - 1) .nil = v := by
  have hsize : 0 < stack.size := by
    by_contra hempty
    rw [Array.size_eq_zero_iff.1 (by omega : stack.size = 0)] at hv
    cases hv
  refine ⟨hsize, ?_⟩
  rw [Array.back?] at hv
  rw [Array.getD_eq_getD_getElem?, hv]
  rfl

theorem peek_top {v : Value} (hv : m.stack.back? = some v) : peek 0 m = .ok v m := by
  obtain ⟨hsize, hget⟩ := getD_top hv
  rw [peek_of_lt hsize, Nat.zero_add, hget]

theorem peek_empty (hv : m.stack.back? = none) :
    peek 0 m = .error (.fault (.internal .stackUnderflow)) m := by
  have hempty : m.stack.size = 0 := by
    by_contra hsome
    rw [Array.back?, Array.getElem?_eq_none_iff] at hv
    omega
  exact peek_of_le (Nat.le_of_eq hempty)

/-- The value on top is assigned to a variable. -/
theorem setLocal_cases (hframes : m.frames = f :: rest) (n : Nat) :
    (∃ v, m.stack.back? = some v ∧ f.base + n < m.stack.size ∧
        setLocal n m = .ok () { m with stack := m.stack.setIfInBounds (f.base + n) v }) ∨
      ∃ b, setLocal n m = .error (.fault (.internal b)) m := by
  have hslot := localSlot_eq hframes n
  unfold setLocal
  cases hv : m.stack.back? with
  | none => exact .inr ⟨_, bind_of_error (peek_empty hv) _⟩
  | some v =>
    rw [bind_of_ok (peek_top hv)]
    by_cases hlt : f.base + n < m.stack.size
    · rw [bind_of_ok (hslot.trans (if_pos hlt))]
      exact .inl ⟨v, rfl, hlt, rfl⟩
    · exact .inr ⟨_, bind_of_error (hslot.trans (if_neg hlt)) _⟩

/-- The default of a parameter goes off the stack, and into its slot if that is nil. -/
inductive Defaulting (m : Machine) (slot : Nat) : EStateM.Result Signal Machine Unit → Prop where
  | assigned {v : Value} (hv : m.stack.back? = some v) (hlt : slot < m.stack.pop.size)
      (hnil : (m.stack.pop.getD slot .nil).isNil = true) :
      Defaulting m slot (.ok () { m with stack := m.stack.pop.setIfInBounds slot v })
  | kept (hpassed : ¬ (m.stack.pop.getD slot .nil).isNil = true) :
      Defaulting m slot (.ok () { m with stack := m.stack.pop })
  | fails (b : Breach) (q : Machine) : Defaulting m slot (.error (.fault (.internal b)) q)

theorem defaulting_defaultLocal (hframes : m.frames = f :: rest) (n : Nat) :
    Defaulting m (f.base + n) (defaultLocal n m) := by
  unfold defaultLocal
  rcases pop_cases m with ⟨v, hv, hpop⟩ | hpop
  swap
  · rw [bind_of_error hpop]
    exact .fails _ _
  have hpopped : ({ m with stack := m.stack.pop } : Machine).frames = f :: rest := hframes
  have hslot := localSlot_eq hpopped n
  rw [bind_of_ok hpop]
  by_cases hlt : f.base + n < m.stack.pop.size
  · rw [bind_of_ok (hslot.trans (if_pos hlt)), get_bind]
    by_cases hnil : (m.stack.pop.getD (f.base + n) .nil).isNil = true
    · rw [if_pos hnil]
      exact .assigned hv hlt hnil
    · rw [if_neg hnil]
      exact .kept hnil
  · rw [bind_of_error (hslot.trans (if_neg hlt))]
    exact .fails _ _

/-- An operation that assigns a value to the slot of a variable. -/
theorem prints_assigns {x : Exec Unit} {stack : Array Value} {v : Value}
    (hop : m.opcode? = some op) (hstays : op.departs = false) (hmakes : op ≠ .makeClosure)
    (hother : op ≠ .stringify ∧ op ≠ .getSuper) (hassignment : m.assignment? = some (slot, v))
    (hrests : Rests op.pushes (some slot) m.stack (stack.setIfInBounds slot v))
    (hlt : slot < stack.size)
    (hx : x (m.atOffset ip) = .ok () { m.atOffset ip with stack := stack.setIfInBounds slot v }) :
    Prints m (proceed x (m.atOffset ip)) := by
  unfold proceed
  rw [bind_of_ok hx]
  have hreplaced : m.replaced? = none := replaced?_eq_none hop hother
  refine .works hop hstays (length_frames_atOffset m ip) ⟨rfl, .refl _ _⟩ ?_ (fun s hs => ?_)
    (by simp [hreplaced]) (fun _ => by rw [hassignment]; nofun) hmakes
  · rw [touched?_of_assignment hassignment]
    exact hrests
  · rw [hassignment] at hs
    obtain rfl := Option.some.inj hs
    exact Array.getElem?_setIfInBounds_self_of_lt hlt

theorem prints_localSet (hframes : m.frames = f :: rest) (hop : m.opcode? = some .localSet) :
    Prints m (execute host f.ip .localSet (m.atOffset (f.ip + 1))) := by
  refine prints_operand hframes reads_fetchShort fun n hn => ?_
  have hmoved := frames_atOffset hframes (f.ip + 3)
  show Prints m (proceed (setLocal n.toNat) (m.atOffset (f.ip + 3)))
  rcases setLocal_cases hmoved n.toNat with ⟨v, hv, hlt, hok⟩ | ⟨b, hfails⟩
  · have hassignment : m.assignment? = some (f.base + n.toNat, v) := by
      unfold assignment?
      rw [hop]
      dsimp only
      rw [localSlot?_eq hframes hn, show m.stack.back? = some v from hv]
      rfl
    exact prints_assigns hop rfl nofun ⟨nofun, nofun⟩ hassignment (.setSlot m.stack _ v) hlt hok
  · exact prints_fails rfl hfails

theorem prints_argDefault (hframes : m.frames = f :: rest) (hop : m.opcode? = some .argDefault) :
    Prints m (execute host f.ip .argDefault (m.atOffset (f.ip + 1))) := by
  refine prints_operand hframes reads_fetchShort fun n hn => ?_
  have hmoved := frames_atOffset hframes (f.ip + 3)
  show Prints m (proceed (defaultLocal n.toNat) (m.atOffset (f.ip + 3)))
  have hassignment : m.assignment? =
      if (m.stack.pop.getD (f.base + n.toNat) .nil).isNil
        then m.stack.back?.map fun v => (f.base + n.toNat, v) else none := by
    unfold assignment?
    rw [hop]
    dsimp only
    rw [localSlot?_eq hframes hn]
    rfl
  have houtcome := defaulting_defaultLocal hmoved n.toNat
  generalize hresult : defaultLocal n.toNat (m.atOffset (f.ip + 3)) = result at houtcome
  cases houtcome with
  | @assigned v hv hlt hnil =>
    have hassigned : m.assignment? = some (f.base + n.toNat, v) :=
      (hassignment.trans (if_pos hnil)).trans (congrArg _ hv)
    exact prints_assigns hop rfl nofun ⟨nofun, nofun⟩ hassigned
      ((Rests.pop m.stack).trans (.setSlot m.stack.pop _ v)) hlt hresult
  | kept hpassed =>
    have hnone : m.assignment? = none := hassignment.trans (if_neg hpassed)
    refine prints_works hop rfl ⟨nofun, nofun⟩ ?_ (fun a m' _ s hs => ?_)
      (by simp [replaced?_eq_none hop (by simp)])
    · rw [hresult]
      exact ⟨⟨rfl, .refl _ _⟩, rfl, .pop m.stack⟩
    · rw [hnone] at hs
      cases hs
  | fails b q => exact prints_fails rfl hresult

/-! Captured variables. -/

/-- An action that raises no exception. -/
def RaisesNothing (x : Exec α) : Prop := ∀ m s q, x m = .error s q → s.isRaised = false

theorem RaisesNothing.bind {β : Type} {x : Exec α} {g : α → Exec β} (hx : RaisesNothing x)
    (hg : ∀ a, RaisesNothing (g a)) : RaisesNothing (x >>= g) := by
  intro m s q herror
  cases hres : x m with
  | ok a m' =>
    rw [bind_of_ok hres] at herror
    exact hg a m' s q herror
  | error s' q' =>
    rw [bind_of_error hres] at herror
    obtain ⟨rfl, rfl⟩ := EStateM.Result.error.inj herror
    exact hx m _ _ hres

theorem raisesNothing_pure (a : α) : RaisesNothing (pure a) := by
  intro m s q herror
  cases herror

theorem raisesNothing_fault {f : Fault} : RaisesNothing (fault f : Exec α) := by
  intro m s q herror
  obtain ⟨rfl, -⟩ := EStateM.Result.error.inj herror
  rfl

theorem raisesNothing_frame : RaisesNothing frame := by
  intro m s q herror
  cases hframes : m.frames with
  | nil =>
    unfold frame at herror
    rw [get_bind, hframes] at herror
    exact raisesNothing_fault m s q herror
  | cons f rest =>
    rw [frame_eq hframes] at herror
    cases herror

theorem raisesNothing_fetchByte : RaisesNothing fetchByte := by
  refine raisesNothing_frame.bind fun f => ?_
  cases f.proto.blob.byteAt? f.ip with
  | none => exact raisesNothing_fault
  | some b =>
    have hjump : RaisesNothing (jumpTo (f.ip + 1)) := by
      intro m s q herror
      cases hframes : m.frames with
      | nil =>
        unfold jumpTo modifyFrame at herror
        rw [get_bind, hframes] at herror
        exact raisesNothing_fault m s q herror
      | cons f rest =>
        rw [jumpTo_eq hframes] at herror
        cases herror
    exact hjump.bind fun _ => raisesNothing_pure b

theorem raisesNothing_fetchShort : RaisesNothing fetchShort :=
  raisesNothing_fetchByte.bind fun _ => raisesNothing_fetchByte.bind fun _ => raisesNothing_pure _

theorem raisesNothing_frameUpvalue (index : Nat) : RaisesNothing (frameUpvalue index) := by
  intro m s q herror
  cases hframes : m.frames with
  | nil =>
    unfold frameUpvalue frame at herror
    rw [bind_assoc, get_bind, hframes] at herror
    exact raisesNothing_fault m s q herror
  | cons f rest =>
    rcases frameUpvalue_cases hframes index with ⟨c, r, -, -, hr⟩ | ⟨b, hb, -⟩
    · rw [hr] at herror
      cases herror
    · rw [hb] at herror
      obtain ⟨rfl, -⟩ := EStateM.Result.error.inj herror
      rfl

theorem raisesNothing_captureAll (base count : Nat) : RaisesNothing (captureAll base count) := by
  induction count with
  | zero => exact raisesNothing_pure []
  | succ count ih =>
    have hrest (cell : Ref) : RaisesNothing (do
        let cells ← captureAll base count
        return cell :: cells) := ih.bind fun cells => raisesNothing_pure _
    refine raisesNothing_fetchByte.bind fun flag => raisesNothing_fetchShort.bind fun index => ?_
    by_cases hflag : (flag != 0) = true
    · have hcapture : RaisesNothing (modifyGet fun m : Machine =>
          m.captureSlot (base + index.toNat) : Exec Ref) := by
        intro m s q herror
        cases herror
      rw [if_pos hflag]
      exact hcapture.bind hrest
    · rw [if_neg hflag]
      exact (raisesNothing_frameUpvalue index.toNat).bind hrest

theorem raisesNothing_read {g : Machine → Exec α} (hg : ∀ m, RaisesNothing (g m)) :
    RaisesNothing (get >>= g) := fun m => hg m m

theorem raisesNothing_set (q : Machine) : RaisesNothing (set q) := by
  intro m s p herror
  cases herror

/-- A closure is made, or the run ends. -/
theorem raisesNothing_makeClosure : RaisesNothing makeClosure := by
  have hconstant : RaisesNothing fetchConstant := by
    refine raisesNothing_fetchShort.bind fun index => raisesNothing_frame.bind fun f => ?_
    cases f.proto.blob.constant? index with
    | none => exact raisesNothing_fault
    | some v => exact raisesNothing_pure v
  have hpush (v : Value) : RaisesNothing (push v) := by
    intro m s q herror
    cases herror
  have halloc (o : Object) : RaisesNothing (modifyGet fun m => m.alloc o : Exec Value) := by
    intro m s q herror
    cases herror
  refine hconstant.bind fun v => ?_
  cases v with
  | ref function =>
    refine raisesNothing_read fun m => ?_
    split
    · refine raisesNothing_frame.bind fun f => (raisesNothing_captureAll _ _).bind fun cells => ?_
      exact (halloc _).bind fun c => hpush c
    · exact raisesNothing_fault
  | _ => exact raisesNothing_fault

/-- A captured variable is written, or the run ends. -/
theorem raisesNothing_setUpvalue : RaisesNothing (do
    let index ← fetchShort
    writeUpvalue index.toNat (← peek 0) : Exec Unit) := by
  have hpeek : RaisesNothing (peek 0) := by
    refine raisesNothing_read fun m => ?_
    split
    · exact raisesNothing_pure _
    · exact raisesNothing_fault
  refine raisesNothing_fetchShort.bind fun index => hpeek.bind fun v => ?_
  refine (raisesNothing_frameUpvalue _).bind fun r => raisesNothing_read fun m => ?_
  split
  · split
    · intro m s q herror
      cases herror
    · exact raisesNothing_fault
  · exact raisesNothing_set _
  · exact raisesNothing_fault

theorem raises?_eq_none (hop : m.opcode? = some op)
    (hraises : ∀ start, RaisesNothing (execute host start op)) : m.raises? host = none := by
  unfold raises?
  cases m.frames.head? with
  | none => rfl
  | some f =>
    rw [Option.bind_some, hop, Option.bind_some]
    split
    · rename_i e q herror
      exact absurd (hraises _ _ _ _ herror) nofun
    · rfl

theorem raises?_makeClosure (hop : m.opcode? = some .makeClosure) : m.raises? host = none :=
  raises?_eq_none hop fun _ => raisesNothing_makeClosure.bind fun _ => raisesNothing_pure none

theorem raises?_upvalueSet (hop : m.opcode? = some .upvalueSet) : m.raises? host = none :=
  raises?_eq_none hop fun _ => raisesNothing_setUpvalue.bind fun _ => raisesNothing_pure none

theorem cell?_eq (hframes : m.frames = f :: rest) {n : UInt16}
    (hn : f.proto.blob.shortAt? (f.ip + 1) = some n) {c : Closure}
    (hclosure : m.heap.get? f.closure = some (.closure c)) :
    m.cell? = c.upvalues[n.toNat]? := by
  unfold cell?
  rw [hframes, List.head?_cons, Option.bind_some, hn, Option.bind_some, hclosure]

/-- A value is written to the cell of a captured variable, or to the slot that the cell stands
for. -/
inductive Overwriting (m : Machine) (f : Frame) (index : Nat) (v : Value) :
    EStateM.Result Signal Machine Unit → Prop where
  | closed {c : Closure} {r : Ref} {w : Value}
      (hclosure : m.heap.get? f.closure = some (.closure c)) (hcell : c.upvalues[index]? = some r)
      (hget : m.heap.get? r = some (.upvalue (.closed w))) :
      Overwriting m f index v (.ok () (m.update r fun _ => .upvalue (.closed v)))
  | opened {c : Closure} {r : Ref} {slot : Nat}
      (hclosure : m.heap.get? f.closure = some (.closure c)) (hcell : c.upvalues[index]? = some r)
      (hget : m.heap.get? r = some (.upvalue (.opened slot))) (hlt : slot < m.stack.size) :
      Overwriting m f index v (.ok () { m with stack := m.stack.setIfInBounds slot v })
  | fails (b : Breach) : Overwriting m f index v (.error (.fault (.internal b)) m)

theorem overwriting_writeUpvalue (hframes : m.frames = f :: rest) (index : Nat) (v : Value) :
    Overwriting m f index v (writeUpvalue index v m) := by
  unfold writeUpvalue
  rcases frameUpvalue_cases hframes index with ⟨c, r, hclosure, hcell, hr⟩ | ⟨b, hb, -⟩
  swap
  · rw [bind_of_error hb]
    exact .fails b
  rw [bind_of_ok hr, get_bind]
  cases hget : m.heap.get? r with
  | none => exact .fails _
  | some o =>
    cases o with
    | upvalue u =>
      cases u with
      | closed w => exact .closed hclosure hcell hget
      | opened slot =>
        dsimp only
        by_cases hlt : slot < m.stack.size
        · rw [if_pos hlt]
          exact .opened hclosure hcell hget hlt
        · rw [if_neg hlt]
          exact .fails _
    | _ => exact .fails _

theorem prints_upvalueSet (hframes : m.frames = f :: rest) (hop : m.opcode? = some .upvalueSet) :
    Prints m (execute host f.ip .upvalueSet (m.atOffset (f.ip + 1))) := by
  refine prints_operand hframes reads_fetchShort fun n hn => ?_
  let behind := m.atOffset (f.ip + 3)
  have hmoved : behind.frames = { f with ip := f.ip + 3 } :: rest := frames_atOffset hframes _
  show Prints m (proceed (peek 0 >>= fun v => writeUpvalue n.toNat v) behind)
  cases hv : m.stack.back? with
  | none =>
    have hpeek : peek 0 behind = _ := peek_empty hv
    exact prints_fails rfl (bind_of_error hpeek _)
  | some v =>
    have hpeek : peek 0 behind = _ := peek_top hv
    have houtcome := overwriting_writeUpvalue hmoved n.toNat v
    generalize hresult : writeUpvalue n.toNat v behind = result at houtcome
    have hwrites : (peek 0 >>= fun v => writeUpvalue n.toNat v) behind = result :=
      (bind_of_ok hpeek _).trans hresult
    cases houtcome with
    | closed hclosure hcell hget =>
      unfold proceed
      rw [bind_of_ok hwrites]
      exact .writes hop (length_frames_atOffset m _) ((cell?_eq hframes hn hclosure).trans hcell) hget
        hv rfl rfl rfl
    | @opened c r slot hclosure hcell hget hlt =>
      have hopen : m.heap.openSlot? r = some slot := Heap.openSlot?_eq_some.2 hget
      have hassignment : m.assignment? = some (slot, v) := by
        unfold assignment?
        rw [hop]
        dsimp only
        rw [cell?_eq hframes hn hclosure, hcell, Option.bind_some, hopen, hv]
        rfl
      exact prints_assigns hop rfl nofun ⟨nofun, nofun⟩ hassignment (.setSlot m.stack slot v) hlt
        hwrites
    | fails b => exact prints_fails rfl hwrites

theorem Gathers.atOffset {offset : Nat} {cells : List Ref} (h : Gathers f offset m cells q)
    (ip : Nat) : Gathers f offset (m.atOffset ip) cells (q.atOffset ip) := by
  induction h with
  | done offset m => exact .done offset _
  | @own offset m q index cells flag hflag hset hindex hrest ih =>
    have hcapture := captureSlot_atOffset m (f.base + index.toNat) ip
    have hstep : Gathers f offset (m.atOffset ip)
        (((m.atOffset ip).captureSlot (f.base + index.toNat)).1 :: cells) (q.atOffset ip) := by
      refine .own hflag hset hindex ?_
      rw [hcapture]
      exact ih
    rw [hcapture] at hstep
    exact hstep
  | shared hflag hindex hclosure hcell hrest ih =>
    exact .shared hflag hindex hclosure hcell ih

theorem Gathers.stack {offset : Nat} {cells : List Ref} (h : Gathers f offset m cells q) :
    q.stack = m.stack := by
  induction h with
  | done => rfl
  | @own offset m q index cells flag hflag hset hindex hrest ih =>
    rw [ih]
    unfold captureSlot
    dsimp only
    split <;> rfl
  | shared hflag hindex hclosure hcell hrest ih => exact ih

/-- Moving the innermost call makes no difference to what is captured. -/
theorem Gathers.back {offset ip at' : Nat} {cells : List Ref}
    (hframes : m.frames = { f with ip } :: rest)
    (h : Gathers f offset (m.atOffset at') cells (q.atOffset at')) :
    Gathers f offset m cells (q.atOffset ip) := by
  have hback := h.atOffset ip
  rwa [atOffset_atOffset, atOffset_atOffset, atOffset_self hframes] at hback

theorem gathers_captureAll {offset : Nat} (hframes : m.frames = { f with ip := offset } :: rest)
    {cells : List Ref} (hok : captureAll f.base count m = .ok cells q) :
    Gathers f offset m cells (q.atOffset offset) ∧ cells.length = count ∧
      q.frames = { f with ip := offset + 3 * count } :: rest := by
  induction count generalizing m offset cells with
  | zero =>
    obtain ⟨rfl, rfl⟩ := EStateM.Result.ok.inj hok
    rw [atOffset_self hframes]
    exact ⟨.done offset m, rfl, hframes⟩
  | succ count ih =>
    -- What follows the cell of the first capture, which leaves the call three bytes further on.
    have hnext {cell : Ref} {p : Machine} (hp : p.frames = { f with ip := offset } :: rest)
        (hrest : ((do
          let cells ← captureAll f.base count
          return cell :: cells : Exec (List Ref)) (p.atOffset (offset + 3))) = .ok cells q) :
        ∃ older, cells = cell :: older ∧ Gathers f (offset + 3) p older (q.atOffset offset) ∧
          cells.length = count + 1 ∧ q.frames = { f with ip := offset + 3 * (count + 1) } :: rest := by
      cases hres : captureAll f.base count (p.atOffset (offset + 3)) with
      | error s p' =>
        rw [bind_of_error hres] at hrest
        cases hrest
      | ok older p' =>
        rw [bind_of_ok hres] at hrest
        obtain ⟨rfl, rfl⟩ := EStateM.Result.ok.inj hrest
        obtain ⟨hgathers, hlength, hmoved⟩ := ih (frames_atOffset hp _) hres
        refine ⟨older, rfl, hgathers.back hp, by rw [List.length_cons, hlength], ?_⟩
        rw [hmoved, show offset + 3 + 3 * count = offset + 3 * (count + 1) by omega]
    rw [captureAll_succ] at hok
    have hfirst := capturing_captureNext hframes f.base
    generalize hresult : captureNext f.base m = result at hfirst
    cases hfirst with
    | @own flag index hflag hset hindex =>
      rw [bind_of_ok hresult] at hok
      have hcaptured := (frames_captureSlot m (f.base + index.toNat)).trans hframes
      obtain ⟨older, rfl, hgathers, hlength, hafter⟩ := hnext hcaptured hok
      exact ⟨.own hflag hset hindex hgathers, hlength, hafter⟩
    | shared hflag hindex hclosure hcell =>
      rw [bind_of_ok hresult] at hok
      obtain ⟨older, rfl, hgathers, hlength, hafter⟩ := hnext hframes hok
      exact ⟨.shared hflag hindex hclosure hcell hgathers, hlength, hafter⟩
    | fails =>
      rw [bind_of_error hresult] at hok
      cases hok

theorem prints_makeClosure (hframes : m.frames = f :: rest) (hop : m.opcode? = some .makeClosure) :
    Prints m (execute host f.ip .makeClosure (m.atOffset (f.ip + 1))) := by
  refine prints_operand hframes reads_fetchConstant fun v hv => ?_
  let behind := m.atOffset (f.ip + 3)
  have hmoved : behind.frames = { f with ip := f.ip + 3 } :: rest := frames_atOffset hframes _
  cases v with
  | ref function =>
    show Prints m (proceed (closeOver function) behind)
    unfold proceed closeOver
    rw [bind_assoc, get_bind]
    cases behind.heap.get? function with
    | none => trivial
    | some o =>
      cases o with
      | function proto =>
        dsimp only
        rw [bind_assoc, bind_of_ok (frame_eq hmoved), bind_assoc]
        cases hres : captureAll f.base proto.captured behind with
        | error s q =>
          rw [bind_of_error hres]
          exact prints_final (raisesNothing_captureAll _ _ _ _ _ hres) q
        | ok cells q =>
          rw [bind_of_ok hres]
          obtain ⟨hgathers, hcount, hafter⟩ := gathers_captureAll hmoved hres
          have hcells : Gathers f (f.ip + 3) m cells (q.atOffset f.ip) := hgathers.back hframes
          have hstack : q.stack = m.stack := hcells.stack
          refine .makes hframes hop ?_ hcells hcount rfl rfl (congrArg (Array.push · _) hstack)
          show q.frames.length = m.frames.length
          rw [hafter, hframes]
          rfl
      | _ => trivial
  | _ => trivial

theorem prints_closeUpvalue (hop : m.opcode? = some .closeUpvalue) :
    Prints m (execute host f.ip .closeUpvalue (m.atOffset (f.ip + 1))) := by
  let behind := m.atOffset (f.ip + 1)
  show Prints m (proceed closeTop behind)
  unfold proceed closeTop
  rw [bind_assoc, get_bind]
  by_cases hempty : behind.stack.isEmpty = true
  · rw [if_pos hempty]
    trivial
  · rw [if_neg hempty]
    rcases pop_cases (behind.closeUpvalues (behind.stack.size - 1)) with ⟨v, -, hpop⟩ | hpop
    · show Prints m (((pop >>= fun _ => pure ()) >>= fun _ => pure none : Exec (Option Ending))
        (behind.closeUpvalues (behind.stack.size - 1)))
      rw [bind_assoc, bind_of_ok hpop]
      exact .closes hop (length_frames_atOffset m _) rfl rfl rfl
    · show Prints m (((pop >>= fun _ => pure ()) >>= fun _ => pure none : Exec (Option Ending))
        (behind.closeUpvalues (behind.stack.size - 1)))
      rw [bind_assoc, bind_of_error hpop]
      trivial

end ScriptMachine.Machine
