import ScriptMachine.Proofs.Code.Validity
import ScriptMachine.Proofs.Machine.Births
import ScriptMachine.Proofs.Machine.Quiet

/-!
Streams that were checked once. Functions, closures and switch tables stay as they were made, and so
do texts, so a heap that grows keeps what a stream relies on. A collection keeps it as well wherever
the constants of the stream can be reached. So a stream that the check has accepted stays sane, with
the same instructions, and so do the streams of the functions it makes closures of.
-/

namespace ScriptMachine

open Instruction

variable {h h' : Heap} {keep : Ref → Prop} {blob : Blob} {is : List Instruction} {v : Value}

/-- What is fixed and the texts stay as they are, as far as they are kept. -/
structure Persists (keep : Ref → Prop) (h h' : Heap) : Prop where
  fixed : ∀ r o, keep r → h.get? r = some o → o.isFixed = true → h'.get? r = some o
  texts : ∀ k x, keep (.text k) → h.pool.arena.get? k = some x → h'.pool.arena.get? k = some x

/-- What the constants of a stream lead to, through functions. -/
inductive Heap.Needs (h : Heap) (blob : Blob) : Ref → Prop where
  | constant {v : Value} {r : Ref} (hv : v ∈ blob.constants) (hr : r ∈ v.refs) : Needs h blob r
  | inner {s : Ref} {proto : Prototype} {v : Value} {r : Ref} (hs : Needs h blob s)
      (hproto : h.get? s = some (.function proto)) (hv : v ∈ proto.blob.constants)
      (hr : r ∈ v.refs) : Needs h blob r

namespace Persists

theorem mono {keep' : Ref → Prop} (hp : Persists keep h h') (himp : ∀ r, keep' r → keep r) :
    Persists keep' h h' :=
  ⟨fun r o hr => hp.fixed r o (himp r hr), fun k x hk => hp.texts k x (himp _ hk)⟩

theorem trans {keep' : Ref → Prop} {h'' : Heap} (hp : Persists keep h h')
    (hp' : Persists keep' h' h'') (himp : ∀ r, keep r → keep' r) : Persists keep h h'' where
  fixed r o hr ho hfixed := hp'.fixed r o (himp r hr) (hp.fixed r o hr ho hfixed) hfixed
  texts k x hk hx := hp'.texts k x (himp _ hk) (hp.texts k x hk hx)

theorem object? (hp : Persists keep h h') (hv : ∀ r ∈ v.refs, keep r) {o : Object}
    (ho : h.object? v = some o) (hfixed : o.isFixed = true) : h'.object? v = some o := by
  cases v with
  | ref r => exact hp.fixed r o (hv r List.mem_cons_self) ho hfixed
  | nil => cases ho
  | bool b => cases ho
  | number x => cases ho

theorem text? (hp : Persists keep h h') (hv : ∀ r ∈ v.refs, keep r) {text : String}
    (ht : h.text? v = some text) : h'.text? v = some text := by
  cases v with
  | ref r =>
    cases r with
    | object k => cases ht
    | text k =>
      obtain ⟨x, hx, rfl⟩ := Option.map_eq_some_iff.1 ht
      exact Option.map_eq_some_iff.2 ⟨x, hp.texts k x (hv _ List.mem_cons_self) hx, rfl⟩
  | nil => cases ht
  | bool b => cases ht
  | number x => cases ht

theorem captured? (hp : Persists keep h h') (hv : ∀ r ∈ v.refs, keep r) {n : Nat}
    (hn : h.captured? v = some n) : h'.captured? v = some n := by
  unfold Heap.captured? at hn ⊢
  split at hn
  · rename_i proto hproto
    rw [hp.object? hv hproto rfl]
    exact hn
  · cases hn

theorem switch? (hp : Persists keep h h') (hv : ∀ r ∈ v.refs, keep r)
    (hs : (Validation.switchTable? h v).isSome = true) :
    ∃ s, h.object? v = some (.switch s) ∧ h'.object? v = some (.switch s) := by
  unfold Validation.switchTable? at hs
  split at hs
  · rename_i s hobject
    exact ⟨s, hobject, hp.object? hv hobject rfl⟩
  · cases hs

theorem admits (hp : Persists keep h h') (hv : ∀ r ∈ v.refs, keep r) {e : Validation.Expected}
    (he : e.admits h v = true) : e.admits h' v = true := by
  have hname (hsome : (h.text? v).isSome = true) : (h'.text? v).isSome = true := by
    obtain ⟨text, htext⟩ := Option.isSome_iff_exists.1 hsome
    rw [hp.text? hv htext]
    rfl
  cases e with
  | any => rfl
  | name => exact hname he
  | nameOrNil =>
    simp only [Validation.Expected.admits, Bool.or_eq_true] at he ⊢
    exact he.imp_right hname
  | switch =>
    obtain ⟨s, -, hs⟩ := hp.switch? hv he
    show (Validation.switchTable? h' v).isSome = true
    unfold Validation.switchTable?
    rw [hs]
    rfl

end Persists

/-- A sane stream whose constants are kept stays sane, with the same instructions. -/
theorem Sane.persist (hp : Persists keep h h')
    (hkeeps : ∀ v ∈ blob.constants, ∀ r ∈ v.refs, keep r) (hsane : Sane h blob is) : Sane h' blob is := by
  have hconstant {index : UInt16} {v : Value} (hv : blob.constant? index = some v) :
      ∀ r ∈ v.refs, keep r := hkeeps v (Array.mem_of_getElem? hv)
  refine ⟨hsane.streams.agrees fun v hv n hn => hp.captured? (hkeeps v hv) hn, ?_, hsane.jumps,
    hsane.regions, ?_⟩
  · intro i hi index e he
    obtain ⟨v, hv, hadmits⟩ := hsane.constants i hi index e he
    exact ⟨v, hv, hp.admits (hconstant hv) hadmits⟩
  · intro i hi index v s hop hoperand hv hs
    have hexpected : Validation.expected? i = some (index, .switch) := by
      unfold Validation.expected?
      rw [hoperand, hop]
    obtain ⟨w, hw, hadmits⟩ := hsane.constants i hi index .switch hexpected
    obtain rfl := Option.some.inj (hv.symm.trans hw)
    obtain ⟨t, hold, hnew⟩ := hp.switch? (hconstant hv) hadmits
    obtain rfl := Object.switch.inj (Option.some.inj (hs.symm.trans hnew))
    exact hsane.switches i hi index v s hop hoperand hv hold

/-! Accepted streams. -/

/-- The instructions of a stream, up to the first defect. -/
def Heap.code (h : Heap) (blob : Blob) : List Instruction :=
  (decodeAll h.captured? blob).instructions.toList

theorem Sane.code_eq (hsane : Sane h blob is) : h.code blob = is := by
  unfold Heap.code
  rw [decodeAll_eq_iff.2 hsane.streams]

/-- The check has accepted a stream, and what its constants lead to has stayed since. -/
def Heap.Accepted (h : Heap) (blob : Blob) : Prop :=
  ∃ earlier : Heap, Validation.check earlier blob = .ok () ∧
    Persists (earlier.Needs blob) earlier h

theorem Heap.Needs.persist (hp : Persists (h.Needs blob) h h') {r : Ref} (hr : h.Needs blob r) :
    h'.Needs blob r := by
  induction hr with
  | constant hv hr => exact .constant hv hr
  | inner hs hproto hv hr ih => exact ih.inner (hp.fixed _ _ hs hproto rfl) hv hr

/-- What a function needs, the stream that refers to it needs. -/
theorem Heap.Needs.of_function {r s : Ref} {proto : Prototype} (hr : h.Needs blob r)
    (hproto : h.get? r = some (.function proto)) (hs : h.Needs proto.blob s) : h.Needs blob s := by
  induction hs with
  | constant hv hs => exact hr.inner hproto hv hs
  | inner _ hproto hv hs ih => exact ih.inner hproto hv hs

namespace Heap.Accepted

theorem of_check (hcheck : Validation.check h blob = .ok ()) : h.Accepted blob :=
  ⟨h, hcheck, fun _ _ _ ho _ => ho, fun _ _ _ hx => hx⟩

theorem sane (haccepted : h.Accepted blob) : Sane h blob (h.code blob) := by
  obtain ⟨earlier, hcheck, hp⟩ := haccepted
  obtain ⟨is, hsane⟩ := sane_of_check hcheck
  have hnow : Sane h blob is := hsane.persist hp fun v hv r hr => .constant hv hr
  rw [hnow.code_eq]
  exact hnow

theorem persist (hp : Persists keep h h') (hkeeps : ∀ r, h.Needs blob r → keep r)
    (haccepted : h.Accepted blob) : h'.Accepted blob := by
  obtain ⟨earlier, hcheck, hsince⟩ := haccepted
  exact ⟨earlier, hcheck, hsince.trans hp fun r hr => hkeeps r (hr.persist hsince)⟩

theorem code_eq (hp : Persists keep h h') (hkeeps : ∀ r, h.Needs blob r → keep r)
    (haccepted : h.Accepted blob) : h'.code blob = h.code blob :=
  (haccepted.sane.persist hp fun _ hv r hr => hkeeps r (.constant hv hr)).code_eq

/-- The functions that an accepted stream makes closures of are accepted too. -/
theorem function_of_closure {i : Instruction} {index : UInt16} {captures : List Capture}
    (haccepted : h.Accepted blob) (hi : i ∈ h.code blob)
    (hoperand : i.operand = .closure index captures) :
    ∃ r proto, blob.constant? index = some (.ref r) ∧ h.get? r = some (.function proto) ∧
      i.width = 3 + 3 * proto.captured ∧ h.Accepted proto.blob := by
  obtain ⟨earlier, hcheck, hp⟩ := haccepted
  obtain ⟨is, hsane⟩ := sane_of_check hcheck
  have hnow : Sane h blob is := hsane.persist hp fun v hv r hr => .constant hv hr
  rw [hnow.code_eq] at hi
  obtain ⟨r, proto, hr, hproto, hwidth⟩ := hsane.function_of_closure hi hoperand
  have hmem : .ref r ∈ blob.constants := Array.mem_of_getElem? hr
  have hneeded : earlier.Needs blob r := .constant hmem List.mem_cons_self
  exact ⟨r, proto, hr, hp.fixed r _ hneeded hproto rfl, hwidth, earlier,
    check_of_constant hcheck hmem hproto, hp.mono fun _ hs => hneeded.of_function hproto hs⟩

end Heap.Accepted

/-! How heaps change. -/

/-- A heap that grows keeps everything. -/
abbrev Endures (h h' : Heap) : Prop := Persists (fun _ => True) h h'

theorem endures_alloc (hwf : h.WellFormed) (o : Object) : Endures h (h.alloc o).2 where
  fixed _ _ _ hr _ := hwf.get?_alloc_of_get? o hr
  texts _ _ _ hx := hx

theorem endures_intern (hwf : h.WellFormed) (text : String) : Endures h (h.intern text).2 where
  fixed _ _ _ hr _ := hr
  texts _ _ _ hx := hwf.pool.get?_intern text hx

theorem endures_update (r : Ref) (f : Object → Object)
    (hf : ∀ o, h.get? r = some o → f o = o ∨ o.isFixed = false ∧ (f o).isFixed = false) :
    Endures h (h.update r f) where
  fixed s o _ hs hfixed := by
    rw [Heap.get?_update]
    by_cases hrs : r = s
    · subst hrs
      rw [if_pos rfl, hs]
      rcases hf o hs with hsame | ⟨hnot, -⟩
      · exact congrArg some hsame
      · exact absurd (hfixed.symm.trans hnot) nofun
    · rw [if_neg hrs]
      exact hs
  texts k x _ hx := by
    cases r <;> exact hx

theorem persists_collected {roots : List Ref} {released : Heap.Released}
    (hcollected : Heap.Collected h (h.Reachable roots) released h') :
    Persists (h.Reachable roots) h h' where
  fixed _ _ hr ho _ := hcollected.get?_iff.2 ⟨ho, hr⟩
  texts k x hk hx := (hcollected.texts k x).2 ⟨hx, hk⟩

/-- What a function can reach includes what its constants lead to. -/
theorem Heap.Needs.reachable {roots : List Ref} {r s : Ref} {proto : Prototype}
    (hr : h.Reachable roots r) (hproto : h.get? r = some (.function proto))
    (hs : h.Needs proto.blob s) : h.Reachable roots s := by
  have hconstant {v : Value} {t : Ref} {inner : Prototype} (hv : v ∈ inner.blob.constants)
      (ht : t ∈ v.refs) : t ∈ (Object.function inner).refs :=
    List.mem_flatMap.2 ⟨v, Array.mem_toList_iff.2 hv, ht⟩
  induction hs with
  | constant hv ht => exact hr.step hproto (hconstant hv ht)
  | inner _ hinner hv ht ih => exact ih.step hinner (hconstant hv ht)

end ScriptMachine
