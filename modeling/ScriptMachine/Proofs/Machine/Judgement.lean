import ScriptMachine.Proofs.Machine.Coverage

/-!
A judgement on actions: from a machine that a world covers, an action ends in a machine that a later
world covers, and what it gives or signals is known there. How much later depends on the action.
Most keep the world, some let it grow, and those that run natives go on to another stretch.
-/

namespace ScriptMachine.Machine

instance : Linked Signal where
  links
    | .raised e => e.refs
    | _ => []

theorem Stretch.Through.trans {host : Host} {ρ σ τ : Stretch} (hρσ : Through host ρ σ)
    (hστ : Through host σ τ) : Through host ρ τ := by
  induction hστ with
  | refl => exact hρσ
  | native _ hgrows hlive hreceiver hargs hnative hserving ih =>
    exact .native ih hgrows hlive hreceiver hargs hnative hserving

theorem bind_of_ok {α β : Type} {x : Exec α} {m m' : Machine} {a : α} (hx : x m = .ok a m')
    (f : α → Exec β) : (x >>= f) m = f a m' := by
  have hbind : (x >>= f) m = EStateM.bind x f m := rfl
  rw [hbind, EStateM.bind, hx]

theorem bind_of_error {α β : Type} {x : Exec α} {m m' : Machine} {s : Signal}
    (hx : x m = .error s m') (f : α → Exec β) : (x >>= f) m = .error s m' := by
  have hbind : (x >>= f) m = EStateM.bind x f m := rfl
  rw [hbind, EStateM.bind, hx]

theorem get_bind {α : Type} (f : Machine → Exec α) (m : Machine) : (get >>= f) m = f m m := rfl

theorem modifyGet_bind {α β : Type} (g : Machine → α × Machine) (f : α → Exec β) (m : Machine) :
    (modifyGet g >>= f) m = f (g m).1 (g m).2 := rfl

theorem set_bind {α : Type} (m' : Machine) (f : PUnit → Exec α) (m : Machine) :
    (set m' >>= f) m = f () m' := rfl

theorem modify_bind {α : Type} (g : Machine → Machine) (f : Unit → Exec α) (m : Machine) :
    (modify g >>= f) m = f () (g m) := rfl

namespace World

variable {α β : Type} [Linked α] [Linked β] {R : World → World → Prop} {w w' : World}

/-- The result of an action, in a world that `R` leads to. -/
def Ends (R : World → World → Prop) (w : World) : EStateM.Result Signal Machine α → Prop
  | .ok a m => ∃ w', R w w' ∧ w'.Covers m ∧ w'.Knows a
  | .error s m => ∃ w', R w w' ∧ w'.Covers m ∧ w'.Knows s

def Does (R : World → World → Prop) (w : World) (x : Exec α) : Prop :=
  ∀ m, w.Covers m → w.Ends R (x m)

/-- An action that hands nothing out. -/
abbrev Keeps (w : World) (x : Exec α) : Prop := w.Does Eq x

/-- An action that releases nothing. -/
abbrev Grows (w : World) (x : Exec α) : Prop := w.Does (· ≤ ·) x

/-- Natives ran between the two worlds, and left the machine kempt if it was. -/
structure Reaches (host : Host) (w w' : World) : Prop where
  through : Stretch.Through host w.stretch w'.stretch
  kempt : w.stretch.start.Kempt → w'.stretch.start.Kempt

abbrev Runs (host : Host) (w : World) (x : Exec α) : Prop := w.Does (Reaches host) x

instance (host : Host) : Std.Refl (Reaches host) where
  refl _ := ⟨.refl, id⟩

instance (host : Host) : Trans (LE.le : World → World → Prop) (Reaches host) (Reaches host) where
  trans hle hreaches := by
    obtain ⟨hthrough, hkempt⟩ := hreaches
    rw [hle.stretch] at hthrough hkempt
    exact ⟨hthrough, hkempt⟩

instance (host : Host) : Trans (Reaches host) (Reaches host) (Reaches host) where
  trans huv hvw := ⟨huv.through.trans hvw.through, fun hu => hvw.kempt (huv.kempt hu)⟩

theorem Ends.mono {S : World → World → Prop} (hRS : ∀ u v, R u v → S u v)
    {e : EStateM.Result Signal Machine α} (h : w.Ends R e) : w.Ends S e := by
  cases e with
  | ok a m =>
    obtain ⟨w', hR, hcovers, hknows⟩ := h
    exact ⟨w', hRS w w' hR, hcovers, hknows⟩
  | error s m =>
    obtain ⟨w', hR, hcovers, hknows⟩ := h
    exact ⟨w', hRS w w' hR, hcovers, hknows⟩

theorem Ends.after [Trans (LE.le : World → World → Prop) R R] (hle : w ≤ w')
    {e : EStateM.Result Signal Machine α} (h : w'.Ends R e) : w.Ends R e := by
  cases e with
  | ok a m =>
    obtain ⟨u, hR, hu⟩ := h
    exact ⟨u, Trans.trans hle hR, hu⟩
  | error s m =>
    obtain ⟨u, hR, hu⟩ := h
    exact ⟨u, Trans.trans hle hR, hu⟩

theorem Keeps.lift [Std.Refl R] {x : Exec α} (h : w.Keeps x) : w.Does R x :=
  fun m hm => (h m hm).mono fun u _ huv => huv ▸ Std.Refl.refl u

theorem Grows.lift [Std.Refl R] [Trans (LE.le : World → World → Prop) R R] {x : Exec α}
    (h : w.Grows x) : w.Does R x :=
  fun m hm => (h m hm).mono fun _ v huv => Trans.trans huv (Std.Refl.refl (r := R) v)

/-! Sequences. -/

theorem Ends.bind {S : World → World → Prop} (hSR : ∀ {u v}, S w u → R u v → R w v)
    (herror : ∀ u, S w u → R w u) {x : Exec α} {f : α → Exec β} {m : Machine} (hx : w.Ends S (x m))
    (hf : ∀ w' a m', x m = .ok a m' → S w w' → w'.Covers m' → w'.Knows a → w'.Ends R (f a m')) :
    w.Ends R ((x >>= f) m) := by
  cases hres : x m with
  | ok a m' =>
    rw [hres] at hx
    obtain ⟨w', hS, hcovers, hknows⟩ := hx
    have hend := hf w' a m' hres hS hcovers hknows
    rw [bind_of_ok hres]
    cases hres' : f a m' with
    | ok b m'' =>
      rw [hres'] at hend
      obtain ⟨w'', hR, hend⟩ := hend
      exact ⟨w'', hSR hS hR, hend⟩
    | error s m'' =>
      rw [hres'] at hend
      obtain ⟨w'', hR, hend⟩ := hend
      exact ⟨w'', hSR hS hR, hend⟩
  | error s m' =>
    rw [hres] at hx
    obtain ⟨w', hS, hend⟩ := hx
    rw [bind_of_error hres]
    exact ⟨w', herror w' hS, hend⟩

theorem Keeps.then [Std.Refl R] {x : Exec α} {f : α → Exec β} (hx : w.Keeps x)
    (hf : ∀ a, w.Knows a → w.Does R (f a)) : w.Does R (x >>= f) := by
  intro m hm
  refine (hx m hm).bind (fun huv hR => huv ▸ hR) (fun u hu => hu ▸ Std.Refl.refl w) ?_
  rintro _ a m' - rfl hm' ha
  exact hf a ha m' hm'

theorem Grows.then [Std.Refl R] [Trans (LE.le : World → World → Prop) R R] {x : Exec α}
    {f : α → Exec β} (hx : w.Grows x) (hf : ∀ w' a, w ≤ w' → w'.Knows a → w'.Does R (f a)) :
    w.Does R (x >>= f) := by
  intro m hm
  refine (hx m hm).bind (fun hle hR => Trans.trans hle hR)
    (fun u hu => Trans.trans hu (Std.Refl.refl (r := R) u)) ?_
  intro w' a m' _ hle hm' ha
  exact hf w' a hle ha m' hm'

theorem Runs.then {host : Host} {x : Exec α} {f : α → Exec β} (hx : w.Runs host x)
    (hf : ∀ (w' : World) a, w'.Knows a → w'.Runs host (f a)) : w.Runs host (x >>= f) := by
  intro m hm
  refine (hx m hm).bind (fun hS hR => Trans.trans hS hR) (fun _ hu => hu) ?_
  intro w' a m' _ _ hm' ha
  exact hf w' a ha m' hm'

theorem does_get {f : Machine → Exec α} (h : ∀ m, w.Covers m → w.Does R (f m)) :
    w.Does R (get >>= f) := fun m hm => h m hm m hm

/-! Single actions. -/

theorem does_pure [Std.Refl R] {a : α} (ha : w.Knows a) : w.Does R (pure a) :=
  fun _ hm => ⟨w, Std.Refl.refl w, hm, ha⟩

theorem does_throw [Std.Refl R] {s : Signal} (hs : w.Knows s) : w.Does R (throw s : Exec α) :=
  fun _ hm => ⟨w, Std.Refl.refl w, hm, hs⟩

theorem keeps_set {m : Machine} (hm : w.Covers m) : w.Keeps (set m : Exec Unit) :=
  fun _ _ => ⟨w, rfl, hm, knows_plain rfl⟩

theorem keeps_modify {f : Machine → Machine} (hf : ∀ m, w.Covers m → w.Covers (f m)) :
    w.Keeps (modify f : Exec Unit) :=
  fun m hm => ⟨w, rfl, hf m hm, knows_plain rfl⟩

/-- A result beside a machine, in a later world. -/
def Gives (w : World) (p : α × Machine) : Prop := ∃ w', w ≤ w' ∧ w'.Covers p.2 ∧ w'.Knows p.1

theorem grows_modifyGet {f : Machine → α × Machine} (hf : ∀ m, w.Covers m → w.Gives (f m)) :
    w.Grows (modifyGet f : Exec α) := fun m hm => hf m hm

end World

end ScriptMachine.Machine
