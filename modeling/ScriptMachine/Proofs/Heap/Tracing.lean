import Mathlib.Data.Set.Card
import ScriptMachine.Proofs.Heap.Marking

/-!
Reachability and tracing. Tracing marks exactly what can be reached from the roots through the
references of objects: nothing else is ever shaded, and an object off the gray list has had its
references followed. A sweep then releases exactly the rest.
-/

namespace ScriptMachine

namespace Arena

/-- A sweep releases one cell of every unmarked slot. -/
theorem length_unreached_eq_ncard {α : Type} (a : Arena α) :
    a.unreached.length = {i | (a.get? i).isSome = true ∧ ¬ a.isMarked i = true}.ncard := by
  have hset : {i | (a.get? i).isSome = true ∧ ¬ a.isMarked i = true} =
      ((a.unreached.map Prod.fst).toFinset : Set Nat) := by
    ext i
    simp only [Set.mem_ofPred_eq, List.coe_toFinset, List.mem_map, Prod.exists, exists_and_right,
      exists_eq_right, mem_unreached, isMarked, get?, Option.isSome_map]
    cases a.cell? i <;> simp
  rw [hset, Set.ncard_coe_finset, List.toFinset_card_of_nodup a.unreached_nodup, List.length_map]

end Arena

namespace Heap

/-- What can be reached from the roots through the references of objects. -/
inductive Reachable (h : Heap) (roots : List Ref) : Ref → Prop where
  | root {r : Ref} (hr : r ∈ roots) : Reachable h roots r
  | step {r s : Ref} {o : Object} (hr : Reachable h roots r) (hobject : h.get? r = some o)
      (hs : s ∈ o.refs) : Reachable h roots s

/-- Between collections, nothing is shaded. -/
structure AtRest (h : Heap) : Prop where
  gray : h.gray = []
  objects : ∀ i c, h.objects.cell? i = some c → c.colour = .white
  texts : ∀ i c, h.pool.arena.cell? i = some c → c.colour = .white

theorem AtRest.not_isMarked {h : Heap} (hrest : h.AtRest) (r : Ref) : ¬ h.isMarked r = true := by
  cases r with
  | object i =>
    rw [isMarked, Arena.isMarked]
    cases hcell : h.objects.cell? i with
    | none => simp
    | some c => simp [Cell.isMarked, hrest.objects i c hcell]
  | text i =>
    rw [isMarked, Pool.isMarked, Arena.isMarked]
    cases hcell : h.pool.arena.cell? i with
    | none => simp
    | some c => simp [Cell.isMarked, hrest.texts i c hcell]

theorem isMarked_markAll (h : Heap) (refs : List Ref) (s : Ref) :
    (h.markAll refs).isMarked s = true ↔ h.isMarked s = true ∨ s ∈ refs ∧ h.Occupied s := by
  induction refs generalizing h with
  | nil => simp [markAll]
  | cons r refs ih =>
    have hnext := ih (h.mark r)
    rw [isMarked_mark, (h.sameContents_mark r).occupied_iff] at hnext
    show ((h.mark r).markAll refs).isMarked s = true ↔ _
    rw [hnext, List.mem_cons, or_assoc, ← or_and_right, eq_comm (a := r)]

/-- What tracing keeps, while the references of the objects in `pending` are being followed. -/
structure Tracing (start : Heap) (roots : List Ref) (pending : List Nat) (h : Heap) : Prop where
  same : SameContents start h
  sound : ∀ r, h.isMarked r = true → Reachable start roots r
  gray : ∀ i ∈ h.gray, h.objects.isMarked i = true
  followed : ∀ i o, h.objects.isMarked i = true → i ∉ h.gray → i ∉ pending →
    start.objects.get? i = some o → ∀ s ∈ o.refs, start.Occupied s → h.isMarked s = true

namespace Tracing

variable {start h : Heap} {roots : List Ref} {pending : List Nat}

theorem mark (ht : Tracing start roots pending h) {r : Ref} (hr : Reachable start roots r) :
    Tracing start roots pending (h.mark r) := by
  have hmono (s : Ref) (hs : h.isMarked s = true) : (h.mark r).isMarked s = true :=
    (h.isMarked_mark r s).2 (Or.inl hs)
  refine ⟨ht.same.trans (h.sameContents_mark r), ?_, ?_, ?_⟩
  · intro s hs
    rcases (h.isMarked_mark r s).1 hs with hold | ⟨rfl, -⟩
    · exact ht.sound s hold
    · exact hr
  · intro i hi
    rcases mem_gray_mark.1 hi with hold | ⟨rfl, hwhite⟩
    · exact hmono (.object i) (ht.gray i hold)
    · have hocc : h.Occupied (.object i) := Arena.isSome_of_isWhite hwhite
      exact (h.isMarked_mark (.object i) (.object i)).2 (Or.inr ⟨rfl, hocc⟩)
  · intro i o hi hgray hpending ho s hs hocc
    rcases (h.isMarked_mark r (.object i)).1 hi with hold | ⟨rfl, hnew⟩
    · exact hmono s (ht.followed i o hold (fun hmem => hgray (mem_gray_mark.2 (Or.inl hmem)))
        hpending ho s hs hocc)
    · -- An object that was not marked was white, so shading it put it into the gray list.
      by_cases hwhite : h.objects.isWhite i = true
      · exact absurd (mem_gray_mark.2 (Or.inr ⟨rfl, hwhite⟩)) hgray
      · have hold := Arena.isMarked_of_not_isWhite hwhite hnew
        exact hmono s (ht.followed i o hold (fun hmem => hgray (mem_gray_mark.2 (Or.inl hmem)))
          hpending ho s hs hocc)

theorem markAll (ht : Tracing start roots pending h) {refs : List Ref}
    (hrefs : ∀ r ∈ refs, Reachable start roots r) :
    Tracing start roots pending (h.markAll refs) := by
  induction refs generalizing h with
  | nil => exact ht
  | cons r refs ih =>
    exact ih (ht.mark (hrefs r List.mem_cons_self)) fun s hs => hrefs s (List.mem_cons_of_mem r hs)

/-- Scanning a gray object keeps the invariant. -/
theorem scan (ht : Tracing start roots [] h) {i : Nat} {rest : List Nat}
    (hgray : h.gray = i :: rest) :
    Tracing start roots [] (({ h with gray := rest } : Heap).scan i) := by
  have hmarked : h.objects.isMarked i = true := ht.gray i (by rw [hgray]; exact List.mem_cons_self)
  have hblack (s : Ref) : ({ h with gray := rest, objects := h.objects.blacken i } : Heap).isMarked s
      = true ↔ h.isMarked s = true := by
    cases s with
    | object j =>
      refine (h.objects.isMarked_blacken i j).trans ⟨?_, Or.inl⟩
      rintro (hold | ⟨rfl, -⟩)
      · exact hold
      · exact hmarked
    | text j => exact Iff.rfl
  have hpopped : Tracing start roots [i]
      { h with gray := rest, objects := h.objects.blacken i } := by
    refine ⟨⟨fun j => (h.objects.get?_blacken i j).trans (ht.same.objects j), ht.same.texts,
      ht.same.index⟩, ?_, ?_, ?_⟩
    · exact fun s hs => ht.sound s ((hblack s).1 hs)
    · intro j hj
      exact (hblack (.object j)).2 (ht.gray j (by rw [hgray]; exact List.mem_cons_of_mem i hj))
    · intro j o hj hrest hpending ho s hs hocc
      have hnotGray : j ∉ h.gray := by
        rw [hgray, List.mem_cons, not_or]
        exact ⟨by simpa using hpending, hrest⟩
      exact (hblack s).2 (ht.followed j o ((hblack (.object j)).1 hj) hnotGray (by simp) ho s hs hocc)
  obtain ⟨o, hobject⟩ := Option.isSome_iff_exists.1 (Arena.isSome_of_isMarked hmarked)
  have hreach : Reachable start roots (.object i) := ht.sound (.object i) hmarked
  have hstart : start.objects.get? i = some o := by rw [← ht.same.objects, hobject]
  have hrefs : ∀ s ∈ o.refs, Reachable start roots s :=
    fun s hs => Reachable.step hreach hstart hs
  have hscan : ({ h with gray := rest } : Heap).scan i =
      ({ h with gray := rest, objects := h.objects.blacken i } : Heap).markAll o.refs := by
    simp [Heap.scan, hobject]
  rw [hscan]
  have hall := hpopped.markAll hrefs
  refine ⟨hall.same, hall.sound, hall.gray, ?_⟩
  intro j o' hj hnotGray _ ho' s hs hocc
  by_cases hji : j = i
  · subst hji
    obtain rfl : o' = o := Option.some.inj (ho'.symm.trans hstart)
    refine (isMarked_markAll _ _ _).2 (Or.inr ⟨hs, ?_⟩)
    exact (hpopped.same.occupied_iff s).2 hocc
  · exact hall.followed j o' hj hnotGray (by simpa using hji) ho' s hs hocc

/-- When tracing ends, exactly what can be reached is marked. -/
theorem isMarked_iff (ht : Tracing start roots [] h) (hgray : h.gray = [])
    (hroots : ∀ r ∈ roots, start.Occupied r → h.isMarked r = true) (r : Ref) :
    h.isMarked r = true ↔ start.Occupied r ∧ Reachable start roots r := by
  constructor
  · intro hr
    exact ⟨(ht.same.occupied_iff r).1 (occupied_of_isMarked hr), ht.sound r hr⟩
  · rintro ⟨hocc, hreach⟩
    induction hreach with
    | root hr => exact hroots _ hr hocc
    | @step r s o _ hobject hs ih =>
      cases r with
      | text i => cases hobject
      | object i =>
        have hr : h.isMarked (.object i) = true := ih (by simp_all [Occupied, Heap.get?])
        exact ht.followed i o hr (by simp [hgray]) (by simp) hobject s hs hocc

end Tracing

theorem AtRest.tracing {h : Heap} (hrest : h.AtRest) (roots : List Ref) :
    Tracing h roots [] h where
  same := SameContents.refl h
  sound r hr := absurd hr (hrest.not_isMarked r)
  gray i hi := by
    rw [hrest.gray] at hi
    cases hi
  followed i _ hi := absurd hi (hrest.not_isMarked (.object i))

theorem isMarked_scan {h : Heap} {r : Ref} (i : Nat) (hr : h.isMarked r = true) :
    (h.scan i).isMarked r = true := by
  refine (isMarked_markAll _ _ _).2 (Or.inl ?_)
  cases r with
  | object j => exact (h.objects.isMarked_blacken i j).2 (Or.inl hr)
  | text j => exact hr

/-- A whole tracing keeps the invariant and every mark, and ends without gray objects. -/
theorem Traces.tracing {h h' start : Heap} {roots : List Ref} (htraces : Traces h h')
    (ht : Tracing start roots [] h) :
    Tracing start roots [] h' ∧ h'.gray = [] ∧
      ∀ r, h.isMarked r = true → h'.isMarked r = true := by
  induction htraces with
  | done hgray => exact ⟨ht, hgray, fun _ hr => hr⟩
  | scan hgray _ ih =>
    obtain ⟨hend, hempty, hmono⟩ := ih (ht.scan hgray)
    exact ⟨hend, hempty, fun r hr => hmono r (isMarked_scan _ hr)⟩

/-- Tracing from the roots marks exactly what can be reached from them. -/
theorem AtRest.isMarked_trace {h : Heap} (hrest : h.AtRest) (roots : List Ref) :
    SameContents h (h.markAll roots).trace ∧ (h.markAll roots).trace.gray = [] ∧
      ∀ r, (h.markAll roots).trace.isMarked r = true ↔ h.Occupied r ∧ Reachable h roots r := by
  have hstart : Tracing h roots [] (h.markAll roots) :=
    (hrest.tracing roots).markAll fun r hr => Reachable.root hr
  obtain ⟨hend, hgray, hmono⟩ := (traces_trace (h.markAll roots)).tracing hstart
  refine ⟨hend.same, hgray, hend.isMarked_iff hgray ?_⟩
  intro r hr hocc
  exact hmono r ((isMarked_markAll h roots r).2 (Or.inr ⟨hr, hocc⟩))

/-! Sweeping. -/

theorem atRest_sweep {h : Heap} (hgray : h.gray = []) : h.sweep.2.AtRest where
  gray := hgray
  objects i c hc := by
    have hcell := (h.objects.cell?_sweep i).symm.trans hc
    obtain ⟨d, -, -, rfl⟩ := Arena.sweptSlot_eq_some.1 hcell
    rfl
  texts i c hc := by
    have hcell := (h.pool.arena.cell?_sweep i).symm.trans hc
    obtain ⟨d, -, -, rfl⟩ := Arena.sweptSlot_eq_some.1 hcell
    rfl

theorem WellFormed.markAll {h : Heap} (hwf : h.WellFormed) (refs : List Ref) :
    (h.markAll refs).WellFormed := by
  induction refs generalizing h with
  | nil => exact hwf
  | cons r refs ih => exact ih (hwf.mark r)

theorem WellFormed.traces {h h' : Heap} (hwf : h.WellFormed) (htraces : Traces h h') :
    h'.WellFormed := by
  induction htraces with
  | done => exact hwf
  | @scan h _ i rest _ _ ih =>
    have hblack : ({ h with gray := rest, objects := h.objects.blacken i } : Heap).WellFormed :=
      ⟨hwf.objects.blacken i, hwf.pool⟩
    exact ih (hblack.markAll _)

theorem WellFormed.sweep {h : Heap} (hwf : h.WellFormed) : h.sweep.2.WellFormed :=
  ⟨hwf.objects.sweep, hwf.pool.sweep⟩

/-- A collection keeps the heap well-formed, the index of the texts with it. -/
theorem WellFormed.collect {h : Heap} (hwf : h.WellFormed) (roots : List Ref) :
    (h.collect roots).2.WellFormed :=
  ((hwf.markAll roots).traces (traces_trace _)).sweep

end Heap

end ScriptMachine
