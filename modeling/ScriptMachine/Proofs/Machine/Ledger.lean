import Mathlib.Data.List.DropRight

/-!
Ledgers. The entries of a stack do not say when they were pushed, and a new entry may look like one
that has just been popped. A ledger follows a stack through a sequence of steps and keeps with every
entry the step that pushed it. In one step any number of entries is popped, and after that at most
one is pushed.
-/

namespace ScriptMachine

variable {α : Type} {stack : Nat → List α} {pushes : Nat → Bool} {n s t u : Nat} {a : α}

/-- The entries of a stack, the newest first, each with the step that pushed it. -/
def ledger (stack : Nat → List α) (pushes : Nat → Bool) : Nat → List (Nat × α)
  | 0 => []
  | t + 1 =>
    match pushes t, stack (t + 1) with
    | true, a :: kept => (t, a) :: (ledger stack pushes t).rtake kept.length
    | _, kept => (ledger stack pushes t).rtake kept.length

/-- The stack is empty at first, and `pushes` tells which steps push an entry. -/
structure Stacked (stack : Nat → List α) (pushes : Nat → Bool) (n : Nat) : Prop where
  empty : stack 0 = []
  step : ∀ t < n,
    (pushes t = true ∧ ∃ a kept, stack (t + 1) = a :: kept ∧ kept <:+ stack t) ∨
      pushes t = false ∧ stack (t + 1) <:+ stack t

/-- An entry leaves the stack in a step. -/
def LeavesIn (stack : Nat → List α) (pushes : Nat → Bool) (e : Nat × α) (t : Nat) : Prop :=
  e ∈ ledger stack pushes t ∧ e ∉ ledger stack pushes (t + 1)

/-- The oldest entries are a suffix, and the only one of its length. -/
theorem map_rtake_of_suffix {β : Type} {l : List β} {f : β → α} {kept : List α}
    (hkept : kept <:+ l.map f) : (l.rtake kept.length).map f = kept := by
  have hdrop := List.suffix_iff_eq_drop.1 hkept
  rw [List.length_map] at hdrop
  rw [List.rtake, List.map_drop]
  exact hdrop.symm

theorem rtake_suffix (l : List α) (n : Nat) : l.rtake n <:+ l := List.drop_suffix _ l

namespace Stacked

/-- The ledger lists the stack. -/
theorem map_snd (h : Stacked stack pushes n) (ht : t ≤ n) :
    (ledger stack pushes t).map Prod.snd = stack t := by
  induction t with
  | zero => exact h.empty.symm
  | succ t ih =>
    have hnow := ih (by omega)
    rcases h.step t (by omega) with ⟨hpushes, a, kept, hstack, hkept⟩ | ⟨hpushes, hkept⟩
    · rw [← hnow] at hkept
      simp only [ledger, hpushes, hstack, List.map_cons, map_rtake_of_suffix hkept]
    · rw [← hnow] at hkept
      simp only [ledger, hpushes, map_rtake_of_suffix hkept]

/-- What a step makes of the ledger. -/
theorem ledger_succ (h : Stacked stack pushes n) (ht : t < n) :
    (∃ a older, pushes t = true ∧ ledger stack pushes (t + 1) = (t, a) :: older ∧
        older <:+ ledger stack pushes t ∧ (stack (t + 1)).head? = some a) ∨
      pushes t = false ∧ ledger stack pushes (t + 1) <:+ ledger stack pushes t := by
  rcases h.step t ht with ⟨hpushes, a, kept, hstack, -⟩ | ⟨hpushes, -⟩
  · refine Or.inl ⟨a, (ledger stack pushes t).rtake kept.length, hpushes, ?_, rtake_suffix _ _, ?_⟩
    · simp only [ledger, hpushes, hstack]
    · rw [hstack, List.head?_cons]
  · refine Or.inr ⟨hpushes, ?_⟩
    simp only [ledger, hpushes]
    exact rtake_suffix _ _

/-- Every entry was pushed by the step it is kept with. -/
theorem pushed_of_mem (h : Stacked stack pushes n) (ht : t ≤ n)
    (hmem : (s, a) ∈ ledger stack pushes t) :
    s < t ∧ pushes s = true ∧ (stack (s + 1)).head? = some a := by
  induction t with
  | zero => cases hmem
  | succ t ih =>
    rcases h.ledger_succ (show t < n by omega) with ⟨b, older, hpushes, hledger, holder, hb⟩ | ⟨-, holder⟩
    · rw [hledger] at hmem
      rcases List.mem_cons.1 hmem with heq | hold
      · obtain ⟨rfl, rfl⟩ := Prod.mk.inj heq
        exact ⟨by omega, hpushes, hb⟩
      · obtain ⟨hs, hrest⟩ := ih (by omega) (holder.subset hold)
        exact ⟨by omega, hrest⟩
    · obtain ⟨hs, hrest⟩ := ih (by omega) (holder.subset hmem)
      exact ⟨by omega, hrest⟩

/-- An entry has been there ever since it was pushed. -/
theorem mem_of_mem (h : Stacked stack pushes n) (ht : t ≤ n)
    (hmem : (s, a) ∈ ledger stack pushes t) (hs : s < u) (hu : u ≤ t) :
    (s, a) ∈ ledger stack pushes u := by
  induction t with
  | zero => cases hmem
  | succ t ih =>
    by_cases hlast : u = t + 1
    · rw [hlast]
      exact hmem
    · have hold : (s, a) ∈ ledger stack pushes t := by
        rcases h.ledger_succ (show t < n by omega) with ⟨b, older, -, hledger, holder, -⟩ | ⟨-, holder⟩
        · rw [hledger] at hmem
          rcases List.mem_cons.1 hmem with heq | hold
          · obtain ⟨rfl, -⟩ := Prod.mk.inj heq
            omega
          · exact holder.subset hold
        · exact holder.subset hmem
      exact ih (by omega) hold (by omega)

/-- Newer entries were pushed by later steps. -/
theorem pairwise (h : Stacked stack pushes n) (ht : t ≤ n) :
    (ledger stack pushes t).Pairwise fun e d => d.1 < e.1 := by
  induction t with
  | zero => exact .nil
  | succ t ih =>
    have hnow := ih (by omega)
    rcases h.ledger_succ (show t < n by omega) with ⟨a, older, -, hledger, holder, -⟩ | ⟨-, holder⟩
    · rw [hledger]
      refine List.pairwise_cons.2 ⟨fun d hd => ?_, hnow.sublist holder.sublist⟩
      exact (h.pushed_of_mem (by omega) (holder.subset hd)).1
    · exact hnow.sublist holder.sublist

/-- An entry that has left the stack does not come back. -/
theorem leaves_once {e : Nat × α} (h : Stacked stack pushes n) (ht : t < n) (hu : u < n)
    (hleaves : LeavesIn stack pushes e t) (hleaves' : LeavesIn stack pushes e u) : t = u := by
  have hlater {t u : Nat} (hu : u < n) (hleaves : LeavesIn stack pushes e t)
      (hleaves' : LeavesIn stack pushes e u) : ¬ t < u := by
    intro hlt
    have hs := (h.pushed_of_mem (by omega) hleaves.1).1
    exact hleaves.2 (h.mem_of_mem (by omega) hleaves'.1 (by omega) (by omega))
  have hle := hlater hu hleaves hleaves'
  have hge := hlater ht hleaves' hleaves
  omega

/-- An entry that is not there any more has left the stack in a step. -/
theorem exists_leaves {e : Nat × α} (hmem : e ∈ ledger stack pushes t)
    (hgone : e ∉ ledger stack pushes u) (hle : t ≤ u) :
    ∃ w, t ≤ w ∧ w < u ∧ LeavesIn stack pushes e w := by
  induction u with
  | zero =>
    obtain rfl : t = 0 := by omega
    exact absurd hmem hgone
  | succ u ih =>
    have hbefore : t ≠ u + 1 := by
      intro heq
      rw [← heq] at hgone
      exact hgone hmem
    by_cases hnow : e ∈ ledger stack pushes u
    · exact ⟨u, by omega, by omega, hnow, hgone⟩
    · obtain ⟨w, htw, hwu, hleaves⟩ := ih hnow (by omega)
      exact ⟨w, htw, by omega, hleaves⟩

/-- A step pushes at most one entry. -/
theorem eq_of_mem {b : α} (h : Stacked stack pushes n) (ht : t ≤ n) (hu : u ≤ n)
    (hmem : (s, a) ∈ ledger stack pushes t) (hmem' : (s, b) ∈ ledger stack pushes u) : a = b := by
  obtain ⟨-, -, ha⟩ := h.pushed_of_mem ht hmem
  obtain ⟨-, -, hb⟩ := h.pushed_of_mem hu hmem'
  exact Option.some.inj (ha.symm.trans hb)

/-- Below an entry stands what stood there when it was pushed. -/
theorem ledger_of_append {newer older : List (Nat × α)} (h : Stacked stack pushes n) (ht : t ≤ n)
    (hledger : ledger stack pushes t = newer ++ (s, a) :: older) :
    ledger stack pushes (s + 1) = (s, a) :: older := by
  induction t generalizing newer with
  | zero =>
    have hnil : [] = newer ++ (s, a) :: older := hledger
    exact absurd hnil (by simp)
  | succ t ih =>
    rcases h.ledger_succ (show t < n by omega) with ⟨b, kept, -, hnext, hkept, -⟩ | ⟨-, hkept⟩
    · rw [hledger] at hnext
      cases newer with
      | nil =>
        obtain ⟨heq, -⟩ := List.cons.inj hnext
        obtain ⟨rfl, -⟩ := Prod.mk.inj heq
        exact hledger
      | cons e newer =>
        have hrest : newer ++ (s, a) :: older = kept := (List.cons.inj hnext).2
        obtain ⟨gone, hgone⟩ := hkept
        rw [← hrest, ← List.append_assoc] at hgone
        exact ih (by omega) hgone.symm
    · obtain ⟨gone, hgone⟩ := hkept
      rw [hledger, ← List.append_assoc] at hgone
      exact ih (by omega) hgone.symm

/-- What is popped in a step without a push. -/
theorem popped {gone : List α} (h : Stacked stack pushes n) (ht : t < n)
    (hstack : stack t = gone ++ stack (t + 1)) (hpushes : pushes t = false) :
    ∃ left, ledger stack pushes t = left ++ ledger stack pushes (t + 1) ∧
      left.map Prod.snd = gone := by
  rcases h.ledger_succ ht with ⟨b, older, hpushed, -⟩ | ⟨-, left, hleft⟩
  · exact absurd (hpushes.symm.trans hpushed) nofun
  · refine ⟨left, hleft.symm, ?_⟩
    have hnow := h.map_snd (show t ≤ n by omega)
    rw [← hleft, List.map_append, h.map_snd (show t + 1 ≤ n by omega), hstack] at hnow
    exact List.append_cancel_right hnow

/-- The top of the stack is gone after a step that leaves no more than what stood below it, but
for what it pushes. -/
theorem top_popped {e : Nat × α} {older : List (Nat × α)} (h : Stacked stack pushes n) (ht : t < n)
    (hledger : ledger stack pushes t = e :: older)
    (hfew : (stack (t + 1)).length ≤ older.length + (pushes t).toNat) :
    e ∉ ledger stack pushes (t + 1) := by
  have hlength := congrArg List.length (h.map_snd (show t + 1 ≤ n by omega))
  rw [List.length_map] at hlength
  have hfresh := (List.pairwise_cons.1 (hledger ▸ h.pairwise (show t ≤ n by omega))).1
  have hbelow {kept : List (Nat × α)} (hkept : kept <:+ ledger stack pushes t)
      (hle : kept.length ≤ older.length) : e ∉ kept := by
    intro hmem
    rw [hledger] at hkept
    have hsuffix := List.suffix_of_suffix_length_le hkept (List.suffix_cons e older) hle
    have hless := hfresh e (hsuffix.subset hmem)
    omega
  rcases h.ledger_succ ht with ⟨a, kept, hpushes, hnext, hkept, -⟩ | ⟨hpushes, hkept⟩
  · rw [hnext, List.length_cons] at hlength
    rw [hpushes, Bool.toNat_true] at hfew
    have hearlier := (h.pushed_of_mem (show t ≤ n by omega) (s := e.1) (a := e.2)
      (by rw [hledger]; exact List.mem_cons_self)).1
    rw [hnext]
    intro hmem
    rcases List.mem_cons.1 hmem with heq | hold
    · rw [heq] at hearlier
      omega
    · exact hbelow hkept (by omega) hold
  · rw [hpushes, Bool.toNat_false] at hfew
    exact hbelow hkept (by omega)

end Stacked

end ScriptMachine
