import Mathlib.Tactic.ByContra
import ScriptMachine.Proofs.Code.Decoding
import ScriptMachine.Validation

/-!
What the check of a stream establishes. Each stream it passes has a decoding without a defect, the
constants of its instructions are of the right kind, and all addresses land at instructions or at
the end. The check goes through the functions among the constants depth first and visits each slot
once, so all functions that can be reached that way are as good.
-/

namespace ScriptMachine

open Instruction

variable {h : Heap} {blob : Blob} {is : List Instruction} {i : Instruction}

/-- The instructions of a stream are as they should be. -/
structure Sane (h : Heap) (blob : Blob) (is : List Instruction) : Prop where
  streams : Streams h.captured? blob 0 is
  constants : ∀ i ∈ is, ∀ index e, Validation.expected? i = some (index, e) →
    ∃ v, blob.constant? index = some v ∧ e.admits h v = true
  jumps : ∀ i ∈ is, ∀ n target, i.operand = .jump n target →
    0 ≤ target ∧ Lands blob is target.toNat
  regions : ∀ i ∈ is, ∀ type handler block, i.operand = .tryRegion type handler block →
    ∀ a ∈ [handler.toNat, block.toNat], a ≠ 0 → Lands blob is a
  switches : ∀ i ∈ is, ∀ index v s, i.op = .switch → i.operand = .const index →
    blob.constant? index = some v → h.object? v = some (.switch s) →
      ∀ d ∈ s.distances, Lands blob is (i.next + d)

/-! One stream. -/

theorem contains_starts (is : List Instruction) (starts : Std.HashSet Nat) (target : Nat) :
    (is.foldl (fun s i => s.insert i.offset) starts).contains target = true ↔
      (∃ i ∈ is, i.offset = target) ∨ starts.contains target = true := by
  induction is generalizing starts with
  | nil => simp
  | cons i rest ih =>
    rw [List.foldl_cons, ih, Std.HashSet.contains_insert]
    simp only [List.mem_cons, exists_eq_or_imp, Bool.or_eq_true, beq_iff_eq]
    exact or_left_comm.trans or_assoc.symm

theorem exists_constant_of_defect (hnone : Validation.constantDefect? h blob i = none)
    {index : UInt16} {e : Validation.Expected} (he : Validation.expected? i = some (index, e)) :
    ∃ v, blob.constant? index = some v ∧ e.admits h v = true := by
  unfold Validation.constantDefect? at hnone
  rw [he] at hnone
  cases hv : blob.constant? index with
  | none =>
    simp only [hv] at hnone
    cases hnone
  | some v =>
    simp only [hv] at hnone
    refine ⟨v, rfl, ?_⟩
    by_contra hadmits
    rw [if_neg hadmits] at hnone
    cases hnone

section Addresses

variable {lands : Nat → Bool} (hnone : Validation.addressDefect? h blob lands i = none)

include hnone

theorem lands_of_jump {n : UInt16} {target : Int} (hoperand : i.operand = .jump n target) :
    0 ≤ target ∧ lands target.toNat = true := by
  unfold Validation.addressDefect? at hnone
  simp only [hoperand] at hnone
  by_contra hbad
  rw [if_neg hbad] at hnone
  cases hnone

theorem lands_of_region {type handler block : UInt16}
    (hoperand : i.operand = .tryRegion type handler block) :
    ∀ a ∈ [handler.toNat, block.toNat], a ≠ 0 → lands a = true := by
  unfold Validation.addressDefect? at hnone
  simp only [hoperand, Option.map_eq_none_iff, List.find?_eq_none] at hnone
  intro a ha hpos
  have hgood := hnone a ha
  simpa [hpos] using hgood

theorem lands_of_switch {index : UInt16} {v : Value} {s : SwitchTable} (hop : i.op = .switch)
    (hoperand : i.operand = .const index) (hv : blob.constant? index = some v)
    (hs : h.object? v = some (.switch s)) : ∀ d ∈ s.distances, lands (i.next + d) = true := by
  have htable : Validation.switchTable? h v = some s := by
    unfold Validation.switchTable?
    rw [hs]
  unfold Validation.addressDefect? at hnone
  simp only [hoperand, hop, if_true, hv, Option.bind_some, htable, Option.map_eq_none_iff,
    List.find?_eq_none] at hnone
  intro d hd
  simpa using hnone d hd

end Addresses

theorem sane_of_localDefect? (hnone : Validation.localDefect? h blob = none) :
    ∃ is, Sane h blob is := by
  unfold Validation.localDefect? at hnone
  dsimp only at hnone
  cases hall : decodeAll h.captured? blob with
  | mk all defect? =>
    rw [hall] at hnone
    cases defect? with
    | some found => cases hnone
    | none =>
      have hstreams : Streams h.captured? blob 0 all.toList := decodeAll_eq_iff.1 hall
      dsimp only at hnone
      generalize hstarts : all.foldl (fun s i => s.insert i.offset) (∅ : Std.HashSet Nat) = starts
        at hnone
      have hlands (target : Nat)
          (hgood : (target == blob.size || starts.contains target) = true) :
          Lands blob all.toList target := by
        rw [← hstarts, ← Array.foldl_toList, Bool.or_eq_true, contains_starts] at hgood
        simpa [Lands] using hgood
      rw [List.findSome?_eq_none_iff] at hnone
      have hdefects (i : Instruction) (hi : i ∈ all.toList) :
          Validation.constantDefect? h blob i = none ∧ Validation.addressDefect? h blob
            (fun target => target == blob.size || starts.contains target) i = none := by
        have hneither := Option.map_eq_none_iff.1 (hnone i hi)
        cases hconstant : Validation.constantDefect? h blob i with
        | some d =>
          rw [hconstant] at hneither
          cases hneither
        | none =>
          rw [hconstant] at hneither
          exact ⟨rfl, hneither⟩
      refine ⟨all.toList, hstreams, ?_, ?_, ?_, ?_⟩
      · intro i hi index e he
        exact exists_constant_of_defect (hdefects i hi).1 he
      · intro i hi n target hoperand
        obtain ⟨hpos, hgood⟩ := lands_of_jump (hdefects i hi).2 hoperand
        exact ⟨hpos, hlands _ hgood⟩
      · intro i hi type handler block hoperand a ha hpos
        exact hlands a (lands_of_region (hdefects i hi).2 hoperand a ha hpos)
      · intro i hi index v s hop hoperand hv hs d hd
        exact hlands _ (lands_of_switch (hdefects i hi).2 hop hoperand hv hs d hd)

/-! Functions that can be reached through constants. -/

/-- A function stands in an object slot. -/
def FunctionAt (h : Heap) (i : Nat) (proto : Prototype) : Prop :=
  h.objects.get? i = some (.function proto)

/-- The functions in some slots are well formed, and the functions among their constants stand in
such slots or are among some values. -/
def Passed (h : Heap) (seen : Nat → Prop) (todo : List Value) : Prop :=
  ∀ i proto, seen i → FunctionAt h i proto → Validation.localDefect? h proto.blob = none ∧
    ∀ j callee, .ref (.object j) ∈ proto.blob.constants → FunctionAt h j callee →
      seen j ∨ .ref (.object j) ∈ todo

/-- All functions among some values and those in the slots seen so far belong to slots whose
functions refer to no others. -/
def Closes (h : Heap) (seen : Nat → Prop) (todo : List Value) : Prop :=
  ∃ all : Nat → Prop, Passed h all [] ∧ (∀ i, seen i → all i) ∧
    ∀ i proto, .ref (.object i) ∈ todo → FunctionAt h i proto → all i

section Skipping

variable {seen : Nat → Prop} {v : Value} {rest : List Value}
  (hv : ∀ j callee, v = .ref (.object j) → FunctionAt h j callee → seen j)

include hv

/-- A value that leads to no function or to one seen already can be left out. -/
theorem Passed.skip (hpassed : Passed h seen (v :: rest)) : Passed h seen rest := by
  intro i proto hi hproto
  obtain ⟨hgood, hcalls⟩ := hpassed i proto hi hproto
  refine ⟨hgood, fun j callee hj hcallee => ?_⟩
  rcases hcalls j callee hj hcallee with hseen | htodo
  · exact Or.inl hseen
  · rcases List.mem_cons.1 htodo with heq | hmem
    · exact Or.inl (hv j callee heq.symm hcallee)
    · exact Or.inr hmem

theorem Closes.skipped (hrest : Closes h seen rest) : Closes h seen (v :: rest) := by
  obtain ⟨all, hclosed, hold, htodo⟩ := hrest
  refine ⟨all, hclosed, hold, fun i proto hi hproto => ?_⟩
  rcases List.mem_cons.1 hi with heq | hmem
  · exact hold i (hv i proto heq.symm hproto)
  · exact htodo i proto hmem hproto

end Skipping

theorem closes_of_functionDefect? {unseen : List Nat} {todo : List Value} (hnodup : unseen.Nodup)
    (hpassed : Passed h (· ∉ unseen) todo)
    (hnone : Validation.functionDefect? h unseen todo = none) :
    Closes h (· ∉ unseen) todo := by
  fun_induction Validation.functionDefect? h unseen todo with
  | case1 unseen => exact ⟨(· ∉ unseen), hpassed, fun _ hi => hi, nofun⟩
  | case2 unseen i rest proto hproto hunseen found hfound => cases hnone
  | case3 unseen i rest proto hproto hunseen hlocal ih =>
    have hgone : i ∉ unseen.erase i := hnodup.not_mem_erase
    have hkept {k : Nat} (hk : k ∉ unseen.erase i) : k ∉ unseen ∨ k = i := by
      by_cases hki : k = i
      · exact Or.inr hki
      · exact Or.inl fun hmem => hk ((List.mem_erase_of_ne hki).2 hmem)
    have hnext : Passed h (· ∉ unseen.erase i) (proto.blob.constants.toList ++ rest) := by
      intro k p hk hp
      rcases hkept hk with hold | rfl
      · obtain ⟨hgood, hcalls⟩ := hpassed k p hold hp
        refine ⟨hgood, fun j callee hj hcallee => ?_⟩
        rcases hcalls j callee hj hcallee with hseen | htodo
        · exact Or.inl fun hmem => hseen (List.mem_of_mem_erase hmem)
        · rcases List.mem_cons.1 htodo with heq | hmem
          · obtain rfl := Ref.object.inj (Value.ref.inj heq)
            exact Or.inl hgone
          · exact Or.inr (List.mem_append_right _ hmem)
      · obtain rfl := Object.function.inj (Option.some.inj (hproto.symm.trans hp))
        exact ⟨hlocal, fun j callee hj _ =>
          Or.inr (List.mem_append_left _ (Array.mem_toList_iff.2 hj))⟩
    obtain ⟨seen, hclosed, hold, htodo⟩ := ih (hnodup.erase i) hnext hnone
    refine ⟨seen, hclosed, fun k hk => hold k fun hmem => hk (List.mem_of_mem_erase hmem), ?_⟩
    intro k p hk hp
    rcases List.mem_cons.1 hk with heq | hmem
    · obtain rfl := Ref.object.inj (Value.ref.inj heq)
      exact hold _ hgone
    · exact htodo k p (List.mem_append_right _ hmem) hp
  | case4 unseen i rest proto hproto hseen ih =>
    have hv (j : Nat) (callee : Prototype) (heq : Value.ref (.object i) = .ref (.object j))
        (_ : FunctionAt h j callee) : j ∉ unseen := by
      obtain rfl := Ref.object.inj (Value.ref.inj heq)
      exact hseen
    exact Closes.skipped hv (ih hnodup (hpassed.skip hv) hnone)
  | case5 unseen i rest hother ih =>
    have hv (j : Nat) (callee : Prototype) (heq : Value.ref (.object i) = .ref (.object j))
        (hcallee : FunctionAt h j callee) : j ∉ unseen := by
      obtain rfl := Ref.object.inj (Value.ref.inj heq)
      exact absurd hcallee (hother callee)
    exact Closes.skipped hv (ih hnodup (hpassed.skip hv) hnone)
  | case6 unseen v rest hother ih =>
    have hv (j : Nat) (callee : Prototype) (heq : v = .ref (.object j))
        (_ : FunctionAt h j callee) : j ∉ unseen := absurd heq (hother j)
    exact Closes.skipped hv (ih hnodup (hpassed.skip hv) hnone)

/-- Where the functions of some slots refer to no others, the search among them finds nothing. -/
theorem functionDefect?_eq_none {all : Nat → Prop} (hclosed : Passed h all []) {unseen : List Nat}
    {todo : List Value}
    (htodo : ∀ i proto, .ref (.object i) ∈ todo → FunctionAt h i proto → all i) :
    Validation.functionDefect? h unseen todo = none := by
  fun_induction Validation.functionDefect? h unseen todo with
  | case1 unseen => rfl
  | case2 unseen i rest proto hproto hunseen found hfound =>
    have hgood := (hclosed i proto (htodo i proto List.mem_cons_self hproto) hproto).1
    exact absurd (hfound.symm.trans hgood) nofun
  | case3 unseen i rest proto hproto hunseen hlocal ih =>
    have hcalls := (hclosed i proto (htodo i proto List.mem_cons_self hproto) hproto).2
    refine ih fun j callee hj hcallee => ?_
    rcases List.mem_append.1 hj with hmem | hmem
    · rcases hcalls j callee (Array.mem_toList_iff.1 hmem) hcallee with hall | hnone
      · exact hall
      · cases hnone
    · exact htodo j callee (List.mem_cons_of_mem _ hmem) hcallee
  | case4 unseen i rest proto hproto hseen ih =>
    exact ih fun j callee hj => htodo j callee (List.mem_cons_of_mem _ hj)
  | case5 unseen i rest hother ih =>
    exact ih fun j callee hj => htodo j callee (List.mem_cons_of_mem _ hj)
  | case6 unseen v rest hother ih =>
    exact ih fun j callee hj => htodo j callee (List.mem_cons_of_mem _ hj)

/-! Whole checks. -/

theorem check_eq_ok_iff : Validation.check h blob = .ok () ↔
    Validation.localDefect? h blob = none ∧
      Validation.functionDefect? h (List.range h.objects.slots.size) blob.constants.toList =
        none := by
  unfold Validation.check
  cases Validation.localDefect? h blob with
  | some found => exact ⟨nofun, nofun⟩
  | none =>
    dsimp only
    cases Validation.functionDefect? h (List.range h.objects.slots.size) blob.constants.toList with
    | some found => exact ⟨nofun, nofun⟩
    | none => exact ⟨fun _ => ⟨rfl, rfl⟩, fun _ => rfl⟩

theorem sane_of_check (hcheck : Validation.check h blob = .ok ()) : ∃ is, Sane h blob is :=
  sane_of_localDefect? (check_eq_ok_iff.1 hcheck).1

/-- A stream whose only constant is a text has no functions to look into. -/
theorem check_of_text {i : Nat} (hconstants : blob.constants = #[.ref (.text i)])
    (hlocal : Validation.localDefect? h blob = none) : Validation.check h blob = .ok () := by
  refine check_eq_ok_iff.2 ⟨hlocal, ?_⟩
  rw [hconstants]
  simp [Validation.functionDefect?]

/-- A check of a stream is a check of the functions among its constants. -/
theorem check_of_constant (hcheck : Validation.check h blob = .ok ()) {r : Ref} {proto : Prototype}
    (hmem : .ref r ∈ blob.constants) (hproto : h.get? r = some (.function proto)) :
    Validation.check h proto.blob = .ok () := by
  have hstart : Passed h (· ∉ List.range h.objects.slots.size) blob.constants.toList := by
    intro i proto hi hproto
    -- A slot past the end holds nothing.
    have hsize : h.objects.slots.size ≤ i := by simpa using hi
    unfold FunctionAt Arena.get? Arena.cell? at hproto
    rw [Array.getElem?_eq_none hsize] at hproto
    cases hproto
  obtain ⟨all, hclosed, -, hconstants⟩ :=
    closes_of_functionDefect? List.nodup_range hstart (check_eq_ok_iff.1 hcheck).2
  cases r with
  | text k => cases hproto
  | object k =>
    have hk : all k := hconstants k proto (Array.mem_toList_iff.2 hmem) hproto
    obtain ⟨hlocal, hcalls⟩ := hclosed k proto hk hproto
    refine check_eq_ok_iff.2 ⟨hlocal, functionDefect?_eq_none hclosed fun j callee hj hcallee => ?_⟩
    rcases hcalls j callee (Array.mem_toList_iff.1 hj) hcallee with hall | hnone
    · exact hall
    · cases hnone

/-- The constant of a closure is a function. -/
theorem Sane.function_of_closure {index : UInt16} {captures : List Capture}
    (hsane : Sane h blob is) (hi : i ∈ is) (hoperand : i.operand = .closure index captures) :
    ∃ r proto, blob.constant? index = some (.ref r) ∧ h.get? r = some (.function proto) ∧
      i.width = 3 + 3 * proto.captured := by
  obtain ⟨count, hholds, hwidth⟩ := (hsane.streams.decoded hi).operand
  rw [hoperand] at hholds
  generalize i.op.layout = layout at hholds hwidth
  cases hholds with
  | @closure _ v _ _ _ hv hcount =>
    unfold Heap.captured? at hcount
    split at hcount
    · rename_i proto hproto
      obtain rfl := Option.some.inj hcount
      cases v with
      | ref r => exact ⟨r, proto, hv, hproto, hwidth⟩
      | nil => cases hproto
      | bool b => cases hproto
      | number x => cases hproto
    · cases hcount

end ScriptMachine
