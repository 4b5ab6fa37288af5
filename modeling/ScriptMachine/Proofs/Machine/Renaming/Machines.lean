import ScriptMachine.Proofs.Machine.Judgement
import ScriptMachine.Proofs.Machine.Renaming.Queries

/-!
Machines that are the same but for a renaming, and a judgement on two actions: from such machines
they end in the same way, in machines that are the same but for a later renaming. Most actions keep
the renaming or let it grow; what natives make of it is said by a relation between renamings.
-/

namespace ScriptMachine

/-- Everything that is set for a machine but when to collect. -/
def Settings.limits (s : Settings) : Settings :=
  { s with gcInitialThreshold := 0, gcGrowthFactor := 0, stressGc := false }

open Machine

namespace Renaming

/-- The parts of two machines outside the heap are the same but for the renaming. -/
structure Reflects (ρ : Renaming) (m n : Machine) : Prop where
  settings : m.settings.limits = n.settings.limits
  stack : ρ.Alike m.stack n.stack
  frames : ρ.Alike m.frames n.frames
  globals : ρ.Alike m.globals n.globals
  openUpvalues : ρ.Alike m.openUpvalues n.openUpvalues
  regions : ρ.Alike m.regions n.regions
  completions : ρ.Alike m.completions n.completions
  raised : ρ.Alike m.raised? n.raised?
  message : ρ.pairs m.builtins.message n.builtins.message
  stacktrace : ρ.pairs m.builtins.stacktrace n.builtins.stacktrace
  primitives : ∀ p, ρ.pairs (m.builtins.primitive p) (n.builtins.primitive p)
  exceptions : ∀ k, ρ.pairs (m.builtins.exception k) (n.builtins.exception k)
  pinned : ρ.Alike m.pinned n.pinned
  output : m.output = n.output
  errors : m.errors = n.errors

/-- Two machines are the same but for the renaming. -/
structure Mirrors (ρ : Renaming) (m n : Machine) : Prop where
  heap : ρ.Holds m.heap n.heap
  state : ρ.Reflects m n

variable {α β : Type} [Renamed α] [Renamed β] {ρ σ τ : Renaming} {m n : Machine}
  {R S : Renaming → Renaming → Prop}

theorem Reflects.mono (h : ρ.Reflects m n) (hle : ρ ≤ σ) : σ.Reflects m n where
  settings := h.settings
  stack := h.stack.mono hle
  frames := h.frames.mono hle
  globals := h.globals.mono hle
  openUpvalues := h.openUpvalues.mono hle
  regions := h.regions.mono hle
  completions := h.completions.mono hle
  raised := h.raised.mono hle
  message := hle.pairs h.message
  stacktrace := hle.pairs h.stacktrace
  primitives p := hle.pairs (h.primitives p)
  exceptions k := hle.pairs (h.exceptions k)
  pinned := h.pinned.mono hle
  output := h.output
  errors := h.errors

/-- A change of the heaps alone. -/
theorem Reflects.withHeaps (h : ρ.Reflects m n) (heap heap' : Heap) :
    ρ.Reflects { m with heap } { n with heap := heap' } := { h with }

/-! The judgement. -/

/-- Results that are the same but for a renaming that `R` leads to. An action that never ends leaves
no machine to compare. -/
inductive Ends (R : Renaming → Renaming → Prop) (ρ : Renaming) :
    EStateM.Result Signal Machine α → EStateM.Result Signal Machine α → Prop where
  | ok {σ : Renaming} {a b : α} {m n : Machine} (hR : R ρ σ) (hm : σ.Mirrors m n)
      (hab : σ.Alike a b) : Ends R ρ (.ok a m) (.ok b n)
  | error {σ : Renaming} {s t : Signal} {m n : Machine} (hR : R ρ σ) (hm : σ.Mirrors m n)
      (hst : σ.Alike s t) : Ends R ρ (.error s m) (.error t n)
  | endless {m n : Machine} : Ends R ρ (.error .endless m) (.error .endless n)

def Does (R : Renaming → Renaming → Prop) (ρ : Renaming) (x y : Exec α) : Prop :=
  ∀ m n, ρ.Mirrors m n → ρ.Ends R (x m) (y n)

/-- Actions that pair nothing more. -/
abbrev Keeps (ρ : Renaming) (x y : Exec α) : Prop := ρ.Does Eq x y

/-- Actions that pair what they make. -/
abbrev Grows (ρ : Renaming) (x y : Exec α) : Prop := ρ.Does (· ≤ ·) x y

/-- A way that a renaming may take while actions run: it may grow at any time. -/
class Course (R : Renaming → Renaming → Prop) : Prop where
  le : ∀ {ρ σ}, ρ ≤ σ → R ρ σ
  trans : ∀ {ρ σ τ}, R ρ σ → R σ τ → R ρ τ

instance : Course (LE.le : Renaming → Renaming → Prop) := ⟨id, le_trans⟩

instance [Course R] : Std.Refl R := ⟨fun ρ => Course.le (le_refl ρ)⟩

theorem Ends.mono (hRS : ∀ σ, R ρ σ → S ρ σ) {e e' : EStateM.Result Signal Machine α}
    (h : ρ.Ends R e e') : ρ.Ends S e e' := by
  cases h with
  | ok hR hm hab => exact .ok (hRS _ hR) hm hab
  | error hR hm hst => exact .error (hRS _ hR) hm hst
  | endless => exact .endless

theorem Ends.after [Course R] (hR : R ρ σ) {e e' : EStateM.Result Signal Machine α}
    (h : σ.Ends R e e') : ρ.Ends R e e' := by
  cases h with
  | ok hR' hm hab => exact .ok (Course.trans hR hR') hm hab
  | error hR' hm hst => exact .error (Course.trans hR hR') hm hst
  | endless => exact .endless

/-- What ends as an endless action does is endless. -/
theorem Ends.endless_right {e : EStateM.Result Signal Machine α} {n n' : Machine}
    (h : ρ.Ends R e (.error .endless n)) : ρ.Ends R e (.error .endless n') := by
  cases h with
  | error hR hm hst =>
    cases hst
    exact .endless
  | endless => exact .endless

theorem Keeps.lift [Std.Refl R] {x y : Exec α} (h : ρ.Keeps x y) : ρ.Does R x y :=
  fun m n hm => (h m n hm).mono fun _ heq => heq ▸ Std.Refl.refl ρ

theorem Grows.lift [Course R] {x y : Exec α} (h : ρ.Grows x y) : ρ.Does R x y :=
  fun m n hm => (h m n hm).mono fun _ => Course.le

/-! Sequences. -/

theorem Ends.bind (herror : ∀ σ, S ρ σ → R ρ σ) {x y : Exec α} {f g : α → Exec β}
    (hx : ρ.Ends S (x m) (y n))
    (hf : ∀ σ a b m' n', x m = .ok a m' → y n = .ok b n' → S ρ σ → σ.Mirrors m' n' →
      σ.Alike a b → ρ.Ends R (f a m') (g b n')) : ρ.Ends R ((x >>= f) m) ((y >>= g) n) := by
  cases hres : x m with
  | ok a m' =>
    cases hres' : y n with
    | ok b n' =>
      rw [hres, hres'] at hx
      cases hx with
      | ok hS hm hab =>
        rw [bind_of_ok hres, bind_of_ok hres']
        exact hf _ a b m' n' hres hres' hS hm hab
    | error t n' =>
      rw [hres, hres'] at hx
      cases hx
  | error s m' =>
    cases hres' : y n with
    | ok b n' =>
      rw [hres, hres'] at hx
      cases hx
    | error t n' =>
      rw [hres, hres'] at hx
      cases hx with
      | error hS hm hst =>
        rw [bind_of_error hres, bind_of_error hres']
        exact .error (herror _ hS) hm hst
      | endless =>
        rw [bind_of_error hres, bind_of_error hres']
        exact .endless

theorem Keeps.then [Std.Refl R] {x y : Exec α} {f g : α → Exec β} (hx : ρ.Keeps x y)
    (hf : ∀ a b, ρ.Alike a b → ρ.Does R (f a) (g b)) : ρ.Does R (x >>= f) (y >>= g) := by
  intro m n hm
  refine (hx m n hm).bind (fun σ hσ => hσ ▸ Std.Refl.refl ρ) ?_
  rintro _ a b m' n' - - rfl hm' hab
  exact hf a b hab m' n' hm'

theorem Grows.then [Course R] {x y : Exec α} {f g : α → Exec β} (hx : ρ.Grows x y)
    (hf : ∀ σ a b, ρ ≤ σ → σ.Alike a b → σ.Does R (f a) (g b)) :
    ρ.Does R (x >>= f) (y >>= g) := by
  intro m n hm
  refine (hx m n hm).bind (fun _ => Course.le) ?_
  intro σ a b m' n' _ _ hle hm' hab
  exact (hf σ a b hle hab m' n' hm').after (Course.le hle)

theorem Does.then [Course R] {x y : Exec α} {f g : α → Exec β} (hx : ρ.Does R x y)
    (hf : ∀ σ a b, R ρ σ → σ.Alike a b → σ.Does R (f a) (g b)) :
    ρ.Does R (x >>= f) (y >>= g) := by
  intro m n hm
  refine (hx m n hm).bind (fun _ => id) ?_
  intro σ a b m' n' _ _ hR hm' hab
  exact (hf σ a b hR hab m' n' hm').after hR

theorem does_get {f g : Machine → Exec α} (h : ∀ m n, ρ.Mirrors m n → ρ.Does R (f m) (g n)) :
    ρ.Does R (get >>= f) (get >>= g) := fun m n hm => h m n hm m n hm

/-! Single actions. -/

theorem keeps_pure {a b : α} (hab : ρ.Alike a b) : ρ.Keeps (pure a) (pure b) :=
  fun _ _ hm => .ok rfl hm hab

theorem keeps_throw {s t : Signal} (hst : ρ.Alike s t) :
    ρ.Keeps (throw s : Exec α) (throw t) := fun _ _ hm => .error rfl hm hst

theorem keeps_set (hm : ρ.Mirrors m n) : ρ.Keeps (set m : Exec Unit) (set n) :=
  fun _ _ _ => .ok rfl hm rfl

theorem keeps_modify {f g : Machine → Machine}
    (hf : ∀ m n, ρ.Mirrors m n → ρ.Mirrors (f m) (g n)) :
    ρ.Keeps (modify f : Exec Unit) (modify g) := fun m n hm => .ok rfl (hf m n hm) rfl

/-- Two results beside machines, under a renaming that `R` leads to. -/
def Gives (R : Renaming → Renaming → Prop) (ρ : Renaming) (p q : α × Machine) : Prop :=
  ∃ σ, R ρ σ ∧ σ.Mirrors p.2 q.2 ∧ σ.Alike p.1 q.1

/-- What is made is paired. -/
abbrev Makes (ρ : Renaming) (p q : α × Machine) : Prop := ρ.Gives (· ≤ ·) p q

theorem does_modifyGet {f g : Machine → α × Machine}
    (hf : ∀ m n, ρ.Mirrors m n → ρ.Gives R (f m) (g n)) :
    ρ.Does R (modifyGet f : Exec α) (modifyGet g) := by
  intro m n hm
  obtain ⟨σ, hR, hm', hab⟩ := hf m n hm
  exact .ok hR hm' hab

/-! Heaps. -/

theorem Mirrors.alloc (hm : ρ.Mirrors m n) {o o' : Object} (hoo : ρ.Alike o o')
    (hcode : ∀ c, o = .closure c → m.heap.get? c.function = some (.function c.proto))
    (hcode' : ∀ c, o' = .closure c → n.heap.get? c.function = some (.function c.proto)) :
    ρ.Makes (m.alloc o) (n.alloc o') := by
  obtain ⟨σ, hle, hheap, hrs⟩ := hm.heap.alloc hoo hcode hcode'
  exact ⟨σ, hle, ⟨hheap, (hm.state.mono hle).withHeaps _ _⟩, .ref hrs⟩

theorem Mirrors.intern (hm : ρ.Mirrors m n) (text : String) :
    ρ.Makes (m.intern text) (n.intern text) := by
  obtain ⟨σ, hle, hheap, hrs⟩ := hm.heap.intern text
  exact ⟨σ, hle, ⟨hheap, (hm.state.mono hle).withHeaps _ _⟩, .ref hrs⟩

theorem Mirrors.update (hm : ρ.Mirrors m n) {r s : Ref} (hrs : ρ.pairs r s)
    {f g : Object → Object}
    (hfg : ∀ o o', m.heap.get? r = some o → n.heap.get? s = some o' → ρ.Alike o o' →
      ρ.Alike (f o) (g o'))
    (hf : ∀ o, m.heap.get? r = some o → Object.LeavesCode f o)
    (hg : ∀ o, n.heap.get? s = some o → Object.LeavesCode g o) :
    ρ.Mirrors (m.update r f) (n.update s g) :=
  ⟨hm.heap.update hrs hfg hf hg, hm.state.withHeaps _ _⟩

theorem Mirrors.setField (hm : ρ.Mirrors m n) {target target' key key' value value' : Value}
    (htarget : ρ.Alike target target') (hkey : ρ.Alike key key') (hvalue : ρ.Alike value value') :
    ρ.Mirrors (m.setField target key value) (n.setField target' key' value') := by
  cases htarget with
  | ref hrs =>
    refine hm.update hrs (fun o o' _ _ hoo => ?_) ?_ ?_
    · have hsame := hoo
      cases hoo with
      | inst hcls hfields =>
        exact .inst hcls (hfields.set hm.heap.leftPool hm.heap.rightPool hkey hvalue)
      | _ => exact hsame
    all_goals
      intro o _
      cases o with
      | inst i => exact Or.inr ⟨rfl, rfl⟩
      | _ => exact Or.inl rfl
  | _ => exact hm

theorem Mirrors.makeException (hm : ρ.Mirrors m n) (kind : ExceptionKind) (message : String) :
    ρ.Makes (m.makeException kind message) (n.makeException kind message) := by
  have hinst : ρ.Alike (Object.inst { cls := m.builtins.exception kind })
      (Object.inst { cls := n.builtins.exception kind }) :=
    .inst (hm.state.exceptions kind) (Table.alike_empty ρ)
  obtain ⟨σ, hρσ, hσ, he⟩ := hm.alloc hinst nofun nofun
  obtain ⟨τ, hστ, hτ, htext⟩ := hσ.intern message
  have hmessage : τ.Alike (Value.ref m.builtins.message) (.ref n.builtins.message) :=
    .ref (hτ.state.message)
  exact ⟨τ, hρσ.trans hστ, hτ.setField (he.mono hστ) hmessage htext, he.mono hστ⟩

/-! Globals. -/

theorem Mirrors.setGlobal (hm : ρ.Mirrors m n) {name name' v w : Value}
    (hname : ρ.Alike name name') (hvw : ρ.Alike v w) :
    ρ.Mirrors { m with globals := m.globals.set m.heap.pool name v }
      { n with globals := n.globals.set n.heap.pool name' w } :=
  ⟨hm.heap,
    { hm.state with
      globals := hm.state.globals.set hm.heap.leftPool hm.heap.rightPool hname hvw }⟩

theorem Mirrors.defineGlobal (hm : ρ.Mirrors m n) (name : String) {v w : Value}
    (hvw : ρ.Alike v w) :
    ∃ σ, ρ ≤ σ ∧ σ.Mirrors (m.defineGlobal name v) (n.defineGlobal name w) := by
  obtain ⟨σ, hle, hσ, hname⟩ := hm.intern name
  exact ⟨σ, hle, hσ.setGlobal hname (hvw.mono hle)⟩

theorem Mirrors.global? (hm : ρ.Mirrors m n) (name : String) :
    ρ.Alike (m.global? name) (n.global? name) := by
  have hentry := hm.state.globals.entryOfText? hm.heap.leftPool hm.heap.rightPool name
  unfold Machine.global?
  generalize m.globals.entryOfText? m.heap.pool name = e? at hentry
  generalize n.globals.entryOfText? n.heap.pool name = e'? at hentry
  cases hentry with
  | none => exact .none
  | some hee => exact .some hee.value

end Renaming

end ScriptMachine
