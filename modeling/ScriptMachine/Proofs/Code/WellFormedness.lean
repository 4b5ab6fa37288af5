import Mathlib.Data.Option.Basic
import ScriptMachine.Proofs.Code.Validity

/-!
What the check accepts. A stream is well formed if it decodes to its end, each constant that an
instruction refers to is there and of the kind that the operation needs, and an instruction can only
go to the start of another one or to the end. The check accepts a stream exactly if it and all
streams that it leads to, from function to function through their constants, are well formed.
-/

namespace ScriptMachine

open Instruction

variable {h : Heap} {blob : Blob} {is : List Instruction} {i : Instruction} {v : Value}
  {op : Opcode}

/-- The constant that an instruction refers to. -/
def Instruction.constant? (i : Instruction) : Option UInt16 :=
  match i.operand with
  | .const index | .constByte index _ | .invoke index _ | .tryRegion index _ _ | .closure index _ =>
    some index
  | _ => none

/-- A value is of the kind that an operation needs as its constant, for most operations a text. -/
def Opcode.Suits (h : Heap) (v : Value) : Opcode → Prop
  | .pushConst => True
  | .enterTry => v = .nil ∨ ∃ text, h.text? v = some text
  | .switch => ∃ s, h.object? v = some (.switch s)
  | .makeClosure => ∃ proto, h.object? v = some (.function proto)
  | _ => ∃ text, h.text? v = some text

/-- How far a switch can jump: for a case, the distance stored as a number, by default, or out. -/
def SwitchTable.Reaches (s : SwitchTable) (d : Nat) : Prop :=
  (∃ e ∈ s.cases.entries, ∃ x, e.value = .number x ∧ d = Binary64.toCount x) ∨
    s.default? = some d ∨ d = s.exit

/-- The addresses that stand in an instruction or in its switch table. Zero is no address for a
handler or a finally block: it stands for one that a region does not have. -/
inductive Instruction.Targets (h : Heap) (blob : Blob) (i : Instruction) : Int → Prop where
  | jump {n : UInt16} {target : Int} (hoperand : i.operand = .jump n target) : Targets h blob i target
  | handler {type handler block : UInt16} (hoperand : i.operand = .tryRegion type handler block)
      (hhandler : handler ≠ 0) : Targets h blob i handler.toNat
  | block {type handler block : UInt16} (hoperand : i.operand = .tryRegion type handler block)
      (hblock : block ≠ 0) : Targets h blob i block.toNat
  | switch {index : UInt16} {v : Value} {s : SwitchTable} {d : Nat} (hop : i.op = .switch)
      (hoperand : i.operand = .const index) (hv : blob.constant? index = some v)
      (hs : h.object? v = some (.switch s)) (hd : s.Reaches d) : Targets h blob i (i.next + d : Nat)

/-- A stream is well formed by itself: it decodes to its end, its constants are right, and its
targets are starts of instructions or the end. -/
structure Blob.WellFormed (blob : Blob) (h : Heap) (is : List Instruction) : Prop where
  streams : Streams h.captured? blob 0 is
  constants : ∀ i ∈ is, ∀ index, i.constant? = some index →
    ∃ v, blob.constant? index = some v ∧ i.op.Suits h v
  targets : ∀ i ∈ is, ∀ target, i.Targets h blob target →
    ∃ n : Nat, target = n ∧ Lands blob is n

/-- A stream leads to itself and to the streams of the functions among the constants of those it
leads to. -/
inductive Blob.LeadsTo (h : Heap) (blob : Blob) : Blob → Prop where
  | refl : LeadsTo h blob blob
  | step {mid : Blob} {r : Ref} {proto : Prototype} (hmid : LeadsTo h blob mid)
      (hr : .ref r ∈ mid.constants) (hproto : h.get? r = some (.function proto)) :
      LeadsTo h blob proto.blob

/-! The constant of one instruction. -/

namespace Opcode

theorem suits_of_ne (hpush : op ≠ .pushConst) (htry : op ≠ .enterTry) (hswitch : op ≠ .switch)
    (hclosure : op ≠ .makeClosure) : op.Suits h v ↔ ∃ text, h.text? v = some text := by
  cases op with
  | pushConst => exact absurd rfl hpush
  | enterTry => exact absurd rfl htry
  | switch => exact absurd rfl hswitch
  | makeClosure => exact absurd rfl hclosure
  | _ => exact Iff.rfl

theorem eq_enterTry (hlayout : op.layout = .tryRegion) : op = .enterTry := by
  cases op with
  | enterTry => rfl
  | _ => cases hlayout

theorem eq_makeClosure (hlayout : op.layout = .closure) : op = .makeClosure := by
  cases op with
  | makeClosure => rfl
  | _ => cases hlayout

end Opcode

theorem isSome_switchTable? :
    (Validation.switchTable? h v).isSome = true ↔ ∃ s, h.object? v = some (.switch s) := by
  unfold Validation.switchTable?
  split
  · rename_i s hs
    exact iff_of_true rfl ⟨s, hs⟩
  · rename_i hother
    exact iff_of_false nofun fun ⟨s, hs⟩ => hother s hs

theorem exists_function_of_captured? {n : Nat} (hn : h.captured? v = some n) :
    ∃ proto, h.object? v = some (.function proto) := by
  unfold Heap.captured? at hn
  split at hn
  · rename_i proto hproto
    exact ⟨proto, hproto⟩
  · cases hn

theorem admits_nameOrNil : Validation.Expected.nameOrNil.admits h v = true ↔
    v = .nil ∨ ∃ text, h.text? v = some text := by
  unfold Validation.Expected.admits
  rw [Bool.or_eq_true, Option.isSome_iff_exists]
  apply or_congr_left
  cases v with
  | nil => exact iff_of_true rfl rfl
  | _ => exact iff_of_false nofun nofun

/-- What the check asks of a constant is what the operation needs, once the instruction was
decoded. -/
theorem suits_iff (hdecoded : Decoded h.captured? blob i) {index : UInt16}
    (hindex : i.constant? = some index) (hv : blob.constant? index = some v) :
    i.op.Suits h v ↔ ∃ e, Validation.expected? i = some (index, e) ∧ e.admits h v = true := by
  obtain ⟨count, hholds, -⟩ := hdecoded.operand
  unfold Instruction.constant? at hindex
  unfold Validation.expected?
  generalize i.operand = operand at hholds hindex ⊢
  have hname (hpush : i.op ≠ .pushConst) (htry : i.op ≠ .enterTry) (hswitch : i.op ≠ .switch)
      (hclosure : i.op ≠ .makeClosure) :
      i.op.Suits h v ↔ Validation.Expected.name.admits h v = true :=
    (Opcode.suits_of_ne hpush htry hswitch hclosure).trans Option.isSome_iff_exists.symm
  have hone {e : Validation.Expected} (hsuits : i.op.Suits h v ↔ e.admits h v = true) :
      i.op.Suits h v ↔ ∃ e', some (index, e) = some (index, e') ∧ e'.admits h v = true := by
    rw [hsuits]
    exact ⟨fun he => ⟨e, rfl, he⟩, fun ⟨e', heq, he⟩ => by
      obtain ⟨-, rfl⟩ := Prod.mk.inj (Option.some.inj heq)
      exact he⟩
  generalize hlayout : i.op.layout = layout at hholds
  cases hholds with
  | none | byte | short | jumpForward | jumpBackward => cases hindex
  | const =>
    obtain rfl := Option.some.inj hindex
    dsimp only
    split
    · rename_i hop
      exact hone (by rw [hop]; exact iff_of_true trivial rfl)
    · rename_i hop
      exact hone (by rw [hop]; exact isSome_switchTable?.symm)
    · rename_i hpush hswitch
      refine hone (hname hpush ?_ hswitch ?_)
      all_goals
        intro hop
        rw [hop] at hlayout
        cases hlayout
  | tryRegion =>
    obtain rfl := Option.some.inj hindex
    refine hone ?_
    rw [Opcode.eq_enterTry hlayout]
    exact admits_nameOrNil.symm
  | invoke | constByte =>
    obtain rfl := Option.some.inj hindex
    refine hone (hname ?_ ?_ ?_ ?_)
    all_goals
      intro hop
      rw [hop] at hlayout
      cases hlayout
  | closure _ hv' hcount =>
    obtain rfl := Option.some.inj hindex
    obtain rfl := Option.some.inj (hv.symm.trans hv')
    refine hone ?_
    rw [Opcode.eq_makeClosure hlayout]
    exact iff_of_true (exists_function_of_captured? hcount) rfl

theorem map_expected? : (Validation.expected? i).map Prod.fst = i.constant? := by
  unfold Validation.expected? Instruction.constant?
  cases i.operand with
  | const index =>
    dsimp only
    split <;> rfl
  | _ => rfl

/-! One stream. -/

theorem mem_distances {s : SwitchTable} {d : Nat} : d ∈ s.distances ↔ s.Reaches d := by
  unfold SwitchTable.distances SwitchTable.Reaches
  rw [List.append_assoc, List.mem_append, List.mem_append, List.mem_filterMap, Option.mem_toList,
    List.mem_singleton]
  refine or_congr_left (exists_congr fun e => and_congr_right fun _ => ?_)
  cases e.value with
  | number x =>
    show some (Binary64.toCount x) = some d ↔ _
    rw [Option.some.injEq]
    exact ⟨fun hd => ⟨x, rfl, hd.symm⟩, fun ⟨y, hy, hd⟩ => by rw [hd, Value.number.inj hy]⟩
  | _ => exact iff_of_false nofun nofun

theorem Sane.wellFormed (hsane : Sane h blob is) : blob.WellFormed h is where
  streams := hsane.streams
  constants i hi index hindex := by
    obtain ⟨⟨index', e⟩, he, rfl⟩ := Option.map_eq_some_iff.1 (map_expected?.trans hindex)
    obtain ⟨v, hv, hadmits⟩ := hsane.constants i hi index' e he
    exact ⟨v, hv, (suits_iff (hsane.streams.decoded hi) hindex hv).2 ⟨e, he, hadmits⟩⟩
  targets i hi target htarget := by
    cases htarget with
    | jump hoperand =>
      obtain ⟨hpos, hlands⟩ := hsane.jumps i hi _ _ hoperand
      exact ⟨_, (Int.toNat_of_nonneg hpos).symm, hlands⟩
    | handler hoperand hhandler =>
      refine ⟨_, rfl, hsane.regions i hi _ _ _ hoperand _ List.mem_cons_self ?_⟩
      exact fun hzero => hhandler (UInt16.toNat_inj.1 hzero)
    | block hoperand hblock =>
      refine ⟨_, rfl, hsane.regions i hi _ _ _ hoperand _ (List.mem_cons_of_mem _
        List.mem_cons_self) ?_⟩
      exact fun hzero => hblock (UInt16.toNat_inj.1 hzero)
    | switch hop hoperand hv hs hd =>
      exact ⟨_, rfl, hsane.switches i hi _ _ _ hop hoperand hv hs _ (mem_distances.2 hd)⟩

theorem Blob.WellFormed.sane (hwell : blob.WellFormed h is) : Sane h blob is where
  streams := hwell.streams
  constants i hi index e he := by
    have hindex : i.constant? = some index := by rw [← map_expected?, he, Option.map_some]
    obtain ⟨v, hv, hsuits⟩ := hwell.constants i hi index hindex
    obtain ⟨e', he', hadmits⟩ := (suits_iff (hwell.streams.decoded hi) hindex hv).1 hsuits
    obtain ⟨-, rfl⟩ := Prod.mk.inj (Option.some.inj (he.symm.trans he'))
    exact ⟨v, hv, hadmits⟩
  jumps i hi n target hoperand := by
    obtain ⟨m, rfl, hlands⟩ := hwell.targets i hi target (.jump hoperand)
    exact ⟨Int.natCast_nonneg m, by rwa [Int.toNat_natCast]⟩
  regions i hi type handler block hoperand a ha hne := by
    have hland {address : UInt16} (htarget : i.Targets h blob address.toNat) :
        Lands blob is address.toNat := by
      obtain ⟨m, hm, hlands⟩ := hwell.targets i hi _ htarget
      rwa [Int.ofNat_inj.1 hm]
    rcases List.mem_cons.1 ha with rfl | ha
    · exact hland (.handler hoperand fun hzero => hne (by rw [hzero]; rfl))
    · obtain rfl := List.mem_singleton.1 ha
      exact hland (.block hoperand fun hzero => hne (by rw [hzero]; rfl))
  switches i hi index v s hop hoperand hv hs d hd := by
    obtain ⟨m, hm, hlands⟩ :=
      hwell.targets i hi _ (.switch hop hoperand hv hs (mem_distances.1 hd))
    rwa [Int.ofNat_inj.1 hm]

theorem constantDefect?_eq_none
    (hconstants : ∀ index e, Validation.expected? i = some (index, e) →
      ∃ v, blob.constant? index = some v ∧ e.admits h v = true) :
    Validation.constantDefect? h blob i = none := by
  unfold Validation.constantDefect?
  cases hexpected : Validation.expected? i with
  | none => rfl
  | some expected =>
    obtain ⟨v, hv, hadmits⟩ := hconstants expected.1 expected.2 hexpected
    dsimp only
    rw [hv]
    exact if_pos hadmits

theorem Sane.addressDefect?_eq_none (hsane : Sane h blob is) (hi : i ∈ is) {lands : Nat → Bool}
    (hlands : ∀ target, Lands blob is target → lands target = true) :
    Validation.addressDefect? h blob lands i = none := by
  unfold Validation.addressDefect?
  split
  · rename_i n target hoperand
    obtain ⟨hpos, hland⟩ := hsane.jumps i hi n target hoperand
    exact if_pos ⟨hpos, hlands _ hland⟩
  · rename_i type handler block hoperand
    rw [Option.map_eq_none_iff, List.find?_eq_none]
    intro a ha hbad
    rw [Bool.and_eq_true, bne_iff_ne, Bool.not_eq_true'] at hbad
    rw [hlands a (hsane.regions i hi type handler block hoperand a ha hbad.1)] at hbad
    cases hbad.2
  · rename_i index hoperand
    split
    · rename_i hop
      cases htable : (blob.constant? index).bind (Validation.switchTable? h) with
      | none => rfl
      | some s =>
        obtain ⟨v, hv, hs⟩ := Option.bind_eq_some_iff.1 htable
        have hobject : h.object? v = some (.switch s) := by
          unfold Validation.switchTable? at hs
          split at hs
          · rename_i hobject
            rw [hobject, Option.some.inj hs]
          · cases hs
        dsimp only
        rw [Option.map_eq_none_iff, List.find?_eq_none]
        intro d hd hbad
        rw [hlands _ (hsane.switches i hi index v s hop hoperand hv hobject d hd)] at hbad
        cases hbad
    · rfl
  · rfl

theorem Sane.localDefect?_eq_none (hsane : Sane h blob is) :
    Validation.localDefect? h blob = none := by
  unfold Validation.localDefect?
  rw [decodeAll_eq_iff.2 hsane.streams]
  dsimp only
  rw [List.findSome?_eq_none_iff]
  intro i hi
  rw [Option.map_eq_none_iff, Option.orElse_eq_none]
  refine ⟨constantDefect?_eq_none (hsane.constants i hi), ?_⟩
  refine hsane.addressDefect?_eq_none hi fun target hland => ?_
  rw [Bool.or_eq_true, beq_iff_eq, ← Array.foldl_toList, contains_starts]
  exact hland.imp_right Or.inl

theorem localDefect?_eq_none_iff :
    Validation.localDefect? h blob = none ↔ ∃ is, blob.WellFormed h is :=
  ⟨fun hnone => (sane_of_localDefect? hnone).imp fun _ => Sane.wellFormed,
    fun ⟨_, hwell⟩ => hwell.sane.localDefect?_eq_none⟩

/-! All streams that a stream leads to. -/

/-- What the check accepts leads only to what it accepts, also around a cycle. -/
theorem Blob.LeadsTo.check {blob' : Blob} (hleads : blob.LeadsTo h blob')
    (hcheck : Validation.check h blob = .ok ()) : Validation.check h blob' = .ok () := by
  induction hleads with
  | refl => exact hcheck
  | step _ hr hproto ih => exact check_of_constant ih hr hproto

/-- The check either accepts a stream or names a defect, and it accepts just the streams that lead
only to well-formed ones. -/
theorem check_accepts_iff (h : Heap) (blob : Blob) :
    (Validation.check h blob = .ok () ∨
      ∃ offset defect, Validation.check h blob = .error (.malformed offset defect)) ∧
    (Validation.check h blob = .ok () ↔
      ∀ blob', blob.LeadsTo h blob' → ∃ is, blob'.WellFormed h is) := by
  refine ⟨?_, fun hcheck blob' hleads => ?_, fun hall => ?_⟩
  · unfold Validation.check
    dsimp only
    split
    · exact Or.inr ⟨_, _, rfl⟩
    · exact Or.inl rfl
  · exact localDefect?_eq_none_iff.1 (check_eq_ok_iff.1 (hleads.check hcheck)).1
  · have hclosed : Passed h
        (fun i => ∃ proto, FunctionAt h i proto ∧ blob.LeadsTo h proto.blob) [] := by
      rintro i proto ⟨proto', hproto', hleads⟩ hproto
      obtain rfl := Object.function.inj (Option.some.inj (hproto'.symm.trans hproto))
      refine ⟨localDefect?_eq_none_iff.2 (hall _ hleads), fun j callee hj hcallee => ?_⟩
      exact Or.inl ⟨callee, hcallee, hleads.step hj hcallee⟩
    refine check_eq_ok_iff.2 ⟨localDefect?_eq_none_iff.2 (hall blob .refl), ?_⟩
    refine functionDefect?_eq_none hclosed fun i proto hi hproto => ?_
    exact ⟨proto, hproto, .step .refl (Array.mem_toList_iff.1 hi) hproto⟩

end ScriptMachine
