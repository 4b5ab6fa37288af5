import Mathlib.Data.List.Perm.Subperm
import ScriptMachine.Machine.Call
import ScriptMachine.Proofs.ArenaSlots

/-!
Walks along references: from a class to its superclass, from a bound method to what it binds. A walk
that ends comes to no place twice, so it is no longer than the arena has slots. A search along a walk
that is given more steps than that ends as it would with any larger number of steps.
-/

namespace ScriptMachine

namespace Walk

variable {α β : Type} {next : α → Option α}

/-- A walk from a place ends after so many steps. -/
inductive Ends (next : α → Option α) : Nat → α → Prop where
  | stop {a : α} (ha : next a = none) : Ends next 0 a
  | step {n : Nat} {a b : α} (ha : next a = some b) (hb : Ends next n b) : Ends next (n + 1) a

theorem Ends.unique {n k : Nat} {a : α} (hn : Ends next n a) (hk : Ends next k a) : n = k := by
  induction hn generalizing k with
  | stop ha =>
    cases hk with
    | stop _ => rfl
    | step hb _ => rw [ha] at hb; cases hb
  | step ha _ ih =>
    cases hk with
    | stop hb => rw [ha] at hb; cases hb
    | step hb hk =>
      rw [ha] at hb
      obtain rfl := Option.some.inj hb
      rw [ih hk]

/-- The places on a walk that ends are different, since fewer steps remain from each later one. -/
theorem Ends.exists_places {n : Nat} {a : α} (h : Ends next n a) :
    ∃ places : List α, places.length = n ∧ places.Nodup ∧
      ∀ b ∈ places, next b ≠ none ∧ ∃ k, k ≤ n ∧ Ends next k b := by
  induction h with
  | stop ha => exact ⟨[], rfl, List.nodup_nil, nofun⟩
  | @step n a b ha hb ih =>
    obtain ⟨places, hlength, hnodup, hall⟩ := ih
    have hnext : next a ≠ none := by
      rw [ha]
      nofun
    refine ⟨a :: places, by rw [List.length_cons, hlength], List.nodup_cons.2 ⟨?_, hnodup⟩, ?_⟩
    · intro hmem
      obtain ⟨-, k, hk, hends⟩ := hall a hmem
      have hsame := hends.unique (.step ha hb)
      omega
    · intro c hc
      rcases List.mem_cons.1 hc with rfl | hmem
      · exact ⟨hnext, n + 1, Nat.le_refl _, .step ha hb⟩
      · obtain ⟨hc, k, hk, hends⟩ := hall c hmem
        exact ⟨hc, k, Nat.le_succ_of_le hk, hends⟩

/-- If a walk can go on from so many places only, it ends within as many steps or never. -/
theorem Ends.le {n size : Nat} {a : α} (h : Ends next n a) {place : Nat → α}
    (hplaces : ∀ b, next b ≠ none → ∃ i < size, place i = b) : n ≤ size := by
  obtain ⟨places, rfl, hnodup, hall⟩ := h.exists_places
  have hsubset : places ⊆ (List.range size).map place := by
    intro b hb
    obtain ⟨i, hi, rfl⟩ := hplaces b (hall b hb).1
    exact List.mem_map_of_mem (List.mem_range.2 hi)
  have hle := (hnodup.subperm hsubset).length_le
  rwa [List.length_map, List.length_range] at hle

/-- A search along a walk, and what it gives when its steps do not suffice. -/
structure Follows (next : α → Option α) (f : Nat → α → β) (short : β) : Prop where
  zero : ∀ a, f 0 a = short
  stop : ∀ n a, next a = none → f (n + 1) a = f 1 a
  step : ∀ a b, next a = some b → ∃ g : β → β, g short = short ∧ ∀ n, f (n + 1) a = g (f n b)

variable {f : Nat → α → β} {short : β}

theorem Follows.eq_of_ends (h : Follows next f short) {n : Nat} {a : α} (hends : Ends next n a)
    {j k : Nat} (hj : n < j) (hk : n < k) : f j a = f k a := by
  induction hends generalizing j k with
  | stop ha =>
    obtain ⟨j, rfl⟩ := Nat.exists_eq_succ_of_ne_zero (Nat.ne_of_gt hj)
    obtain ⟨k, rfl⟩ := Nat.exists_eq_succ_of_ne_zero (Nat.ne_of_gt hk)
    rw [h.stop j _ ha, h.stop k _ ha]
  | @step n a b ha _ ih =>
    obtain ⟨j, rfl⟩ := Nat.exists_eq_succ_of_ne_zero (Nat.ne_of_gt (Nat.zero_lt_of_lt hj))
    obtain ⟨k, rfl⟩ := Nat.exists_eq_succ_of_ne_zero (Nat.ne_of_gt (Nat.zero_lt_of_lt hk))
    obtain ⟨g, -, hg⟩ := h.step a b ha
    rw [hg j, hg k, ih (Nat.lt_of_succ_lt_succ hj) (Nat.lt_of_succ_lt_succ hk)]

theorem Follows.eq_short (h : Follows next f short) {n : Nat} {a : α}
    (hends : ∀ k < n, ¬ Ends next k a) : f n a = short := by
  induction n generalizing a with
  | zero => exact h.zero a
  | succ n ih =>
    cases ha : next a with
    | none => exact absurd (.stop ha) (hends 0 (Nat.zero_lt_succ n))
    | some b =>
      obtain ⟨g, hshort, hg⟩ := h.step a b ha
      rw [hg n, ih fun k hk hb => hends (k + 1) (Nat.succ_lt_succ hk) (.step ha hb), hshort]

/-- More steps than there are places to go on from make no difference. -/
theorem Follows.eq_of_lt (h : Follows next f short) {size : Nat} (place : Nat → α)
    (hplaces : ∀ b, next b ≠ none → ∃ i < size, place i = b) {j k : Nat} (hj : size < j)
    (hk : size < k) (a : α) : f j a = f k a := by
  by_cases hends : ∃ n, Ends next n a
  · obtain ⟨n, hn⟩ := hends
    have hle := hn.le hplaces
    exact h.eq_of_ends hn (by omega) (by omega)
  · rw [h.eq_short fun n _ hn => hends ⟨n, hn⟩, h.eq_short fun n _ hn => hends ⟨n, hn⟩]

end Walk

namespace Heap

open Walk

variable {h : Heap} {r : Ref} {v : Value} {α : Type}

theorem exists_slot_of_get? {o : Object} (ho : h.get? r = some o) :
    ∃ i < h.objects.slots.size, Ref.object i = r := by
  cases r with
  | object i =>
    obtain ⟨c, hc, -⟩ := Arena.get?_eq_some.1 ho
    exact ⟨i, Arena.lt_size_of_cell? hc, rfl⟩
  | text i => cases ho

/-! Class chains. -/

/-- The superclass of a class. -/
def superclass? (h : Heap) (r : Ref) : Option Ref := (h.class? r).bind Class.superclass

theorem exists_slot_of_class? {c : Class} (hc : h.class? r = some c) :
    ∃ i < h.objects.slots.size, Ref.object i = r := by
  unfold class? at hc
  split at hc
  · next ho => exact exists_slot_of_get? ho
  · cases hc

theorem exists_slot_of_superclass? (hr : h.superclass? r ≠ none) :
    ∃ i < h.objects.slots.size, Ref.object i = r := by
  obtain ⟨s, hs⟩ := Option.ne_none_iff_exists'.1 hr
  obtain ⟨c, hc, -⟩ := Option.bind_eq_some_iff.1 hs
  exact exists_slot_of_class? hc

/-- Where a search along a chain goes on to. -/
def climbNext (h : Heap) (pick : Ref → Class → Option α) (r : Ref) : Option Ref :=
  (h.class? r).bind fun c => if (pick r c).isSome then none else c.superclass

theorem follows_climb (h : Heap) (pick : Ref → Class → Option α) :
    Follows (h.climbNext pick) (h.climb pick) .endless where
  zero _ := rfl
  stop n r hr := by
    unfold climbNext at hr
    unfold climb
    cases hc : h.class? r with
    | none => rfl
    | some c =>
      simp only [hc, Option.bind_some] at hr
      cases hpick : pick r c with
      | some a => simp only [hpick]
      | none =>
        simp only [hpick, Option.isSome_none, Bool.false_eq_true, if_false] at hr
        simp only [hpick, hr]
  step r s hr := by
    unfold climbNext at hr
    refine ⟨id, rfl, fun n => ?_⟩
    cases hc : h.class? r with
    | none => simp [hc] at hr
    | some c =>
      simp only [hc, Option.bind_some] at hr
      cases hpick : pick r c with
      | some a => simp [hpick] at hr
      | none =>
        simp only [hpick, Option.isSome_none, Bool.false_eq_true, if_false] at hr
        simp only [climb, hc, hpick, hr, id]

theorem climb_eq_of_le (pick : Ref → Class → Option α) {n : Nat} (hn : h.chainLimit ≤ n) (r : Ref) :
    h.climb pick h.chainLimit r = h.climb pick n r := by
  unfold chainLimit at hn ⊢
  refine (follows_climb h pick).eq_of_lt .object (fun s hs => ?_) (Nat.lt_succ_self _) hn r
  obtain ⟨t, ht⟩ := Option.ne_none_iff_exists'.1 hs
  obtain ⟨c, hc, -⟩ := Option.bind_eq_some_iff.1 ht
  exact exists_slot_of_class? hc

theorem reaches_eq_of_le (target : Ref) {n : Nat} (hn : h.chainLimit ≤ n) (r : Ref) :
    h.reaches target h.chainLimit r = h.reaches target n r := by
  let next (r : Ref) : Option Ref := if r = target then none else h.superclass? r
  have hfollows : Follows next (h.reaches target) .endless := by
    constructor
    · exact fun _ => rfl
    · intro n r hr
      unfold reaches
      by_cases htarget : r = target
      · rw [if_pos htarget, if_pos htarget]
      · have hsuper : (h.class? r).bind Class.superclass = none := by
          simpa [next, htarget, superclass?] using hr
        simp only [if_neg htarget, hsuper]
    · intro r s hr
      refine ⟨id, rfl, fun n => ?_⟩
      by_cases htarget : r = target
      · simp [next, htarget] at hr
      · have hsuper : (h.class? r).bind Class.superclass = some s := by
          simpa [next, htarget, superclass?] using hr
        simp only [reaches, if_neg htarget, hsuper, id]
  unfold chainLimit at hn ⊢
  refine hfollows.eq_of_lt .object (fun s hs => ?_) (Nat.lt_succ_self _) hn r
  by_cases htarget : s = target
  · simp [next, htarget] at hs
  · exact exists_slot_of_superclass? (by simpa [next, htarget] using hs)

theorem chain_eq_of_le {n : Nat} (hn : h.chainLimit ≤ n) (r : Ref) :
    h.chain h.chainLimit r = h.chain n r := by
  have hfollows : Follows h.superclass? h.chain none := by
    constructor
    · exact fun _ => rfl
    · intro n r hr
      unfold superclass? at hr
      unfold chain
      cases hc : h.class? r with
      | none => rfl
      | some c =>
        simp only [hc, Option.bind_some] at hr
        simp only [hr]
    · intro r s hr
      unfold superclass? at hr
      obtain ⟨c, hc, hs⟩ := Option.bind_eq_some_iff.1 hr
      exact ⟨Option.map (c :: ·), rfl, fun n => by simp only [chain, hc, hs]⟩
  unfold chainLimit at hn ⊢
  exact hfollows.eq_of_lt .object (fun s hs => exists_slot_of_superclass? hs) (Nat.lt_succ_self _) hn r

/-! Bound methods. -/

/-- The bound method behind a value. -/
def boundMethod? (h : Heap) (v : Value) : Option BoundMethod :=
  match h.object? v with
  | some (.bound b) => some b
  | _ => none

theorem callee?_eq_bound {b : BoundMethod} :
    h.callee? v = some (.bound b) ↔ h.boundMethod? v = some b := by
  cases v with
  | ref r =>
    simp only [callee?, boundMethod?, object?]
    cases h.get? r with
    | none => simp
    | some o => cases o <;> simp
  | _ => simp [callee?, boundMethod?, object?]

theorem exists_slot_of_bound (hv : (h.boundMethod? v).map BoundMethod.method ≠ none) :
    ∃ i < h.objects.slots.size, Value.ref (.object i) = v := by
  cases v with
  | ref r =>
    simp only [boundMethod?, object?] at hv
    cases ho : h.get? r with
    | none => simp [ho] at hv
    | some o =>
      obtain ⟨i, hi, rfl⟩ := exists_slot_of_get? ho
      exact ⟨i, hi, rfl⟩
  | _ => simp [boundMethod?, object?] at hv

/-- What a search gives, with one step more to count the place it starts from. -/
def afterOne {β : Type} (short : β) (f : Nat → Value → β) : Nat → Value → β
  | 0, _ => short
  | n + 1, v => f n v

theorem unbind_eq_of_le {n : Nat} (hn : h.linkLimit ≤ n) (receiver? : Option Value) (v : Value) :
    h.unbind h.linkLimit receiver? v = h.unbind n receiver? v := by
  let f := afterOne (fun _ => none) fun n v receiver? => h.unbind n receiver? v
  have hfollows : Follows (fun v => (h.boundMethod? v).map BoundMethod.method) f (fun _ => none) := by
    constructor
    · exact fun _ => rfl
    · intro n v hv
      funext receiver?
      have hbound (b : BoundMethod) : h.callee? v ≠ some (.bound b) := by
        rw [Ne, callee?_eq_bound, Option.map_eq_none_iff.1 hv]
        nofun
      simp only [f, afterOne]
      unfold unbind
      split
      · next b hb => exact absurd hb (hbound b)
      · rfl
    · intro v u hv
      obtain ⟨b, hb, rfl⟩ := Option.map_eq_some_iff.1 hv
      refine ⟨fun k _ => k (some b.receiver), rfl, fun n => ?_⟩
      funext receiver?
      have hcallee := callee?_eq_bound.2 hb
      cases n with
      | zero =>
        simp only [f, afterOne]
        rw [unbind, hcallee]
      | succ n =>
        simp only [f, afterOne]
        rw [unbind, hcallee]
  have heq := hfollows.eq_of_lt (fun i => .ref (.object i)) (fun u hu => exists_slot_of_bound hu)
    (Nat.lt_succ_self h.objects.slots.size) (Nat.lt_succ_of_le hn) v
  exact congrFun heq receiver?

theorem renderWith_eq_of_le (element : Option (Value → String)) {n : Nat} (hn : h.linkLimit ≤ n)
    (quoted : Bool) (v : Value) :
    h.renderWith element h.linkLimit quoted v = h.renderWith element n quoted v := by
  let f := afterOne (fun _ => "") fun n v quoted => h.renderWith element n quoted v
  have hfollows : Follows (fun v => (h.boundMethod? v).map BoundMethod.method) f (fun _ => "") := by
    constructor
    · exact fun _ => rfl
    · intro n v hv
      funext quoted
      rw [Option.map_eq_none_iff] at hv
      simp only [f, afterOne]
      rcases v with _ | _ | _ | (i | i)
      case ref.object =>
        simp only [boundMethod?, object?] at hv
        cases ho : h.get? (.object i) with
        | none => simp [renderWith, ho]
        | some o =>
          cases o with
          | bound b => simp [ho] at hv
          | _ => simp [renderWith, ho]
      all_goals simp [renderWith]
    · intro v u hv
      obtain ⟨b, hb, rfl⟩ := Option.map_eq_some_iff.1 hv
      refine ⟨fun k _ => k false, rfl, fun n => ?_⟩
      funext quoted
      rcases v with _ | _ | _ | (i | i)
      case ref.object =>
        simp only [boundMethod?, object?] at hb
        cases ho : h.get? (.object i) with
        | none => simp [ho] at hb
        | some o =>
          cases o with
          | bound b' =>
            obtain rfl : b' = b := by simpa [ho] using hb
            cases n with
            | zero => simp [f, afterOne, renderWith, ho]
            | succ n => simp [f, afterOne, renderWith, ho]
          | _ => simp [ho] at hb
      all_goals cases hb
  have heq := hfollows.eq_of_lt (fun i => .ref (.object i)) (fun u hu => exists_slot_of_bound hu)
    (Nat.lt_succ_self h.objects.slots.size) (Nat.lt_succ_of_le hn) v
  exact congrFun heq quoted

end Heap

end ScriptMachine
