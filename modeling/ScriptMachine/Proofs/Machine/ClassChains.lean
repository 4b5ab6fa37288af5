import ScriptMachine.Proofs.Code.Operands
import ScriptMachine.Proofs.Code.Validity
import ScriptMachine.Proofs.Machine.Activations
import ScriptMachine.Proofs.Machine.BoundMethods
import ScriptMachine.Proofs.Machine.Liveness
import ScriptMachine.Proofs.Machine.Safety.Session

/-!
Chains of classes end. A class may get a superclass at any time, and nothing keeps it from one that
descends from it, or from itself; then the chain runs in a circle. In sessions in which this does not
happen every chain ends at a class without superclass, and so does every search along a chain and
every step of the machine.
-/

namespace ScriptMachine

namespace Heap

variable {h : Heap}

/-- No search runs in a circle. -/
structure Acyclic (h : Heap) : Prop where
  lineal : h.Lineal
  bonded : h.Bonded

instance lasting_acyclic : Lasting Acyclic where
  alloc hh hloose := {
    lineal := hh.lineal.alloc fun s hs => absurd hs (hloose.1 s)
    bonded := hh.bonded.alloc fun target htarget => by
      rw [hloose.2] at htarget
      cases htarget }
  intern text hh := ⟨hh.lineal.intern text, hh.bonded.intern text⟩
  update hh hf := {
    lineal := hh.lineal.update fun o ho => (Prod.mk.inj (hf o ho)).1
    bonded := hh.bonded.update fun o ho => (Prod.mk.inj (hf o ho)).2 }
  collect roots hh := ⟨hh.lineal.collect roots, hh.bonded.collect roots⟩

theorem acyclic_new (threshold growth : Nat) (stress : Bool) :
    (Heap.new threshold growth stress).Acyclic := by
  have hfounded := founded_new threshold growth stress
  refine ⟨⟨hfounded.wellFormed, hfounded.rest, fun r c hc => ?_⟩,
    ⟨hfounded.wellFormed, hfounded.rest, fun v target hv => ?_⟩⟩
  · unfold class? at hc
    rw [get?_new] at hc
    cases hc
  · obtain ⟨r, o, -, ho, -⟩ := exists_ref_of_method? hv
    rw [get?_new] at ho
    cases ho

/-- A class is stored with a class as its superclass. -/
theorem Acyclic.alloc_class (hh : h.Acyclic) {c : Class}
    (hc : ∀ s, c.superclass = some s → ∃ parent, h.parent? s = some parent) :
    (h.alloc (.cls c)).2.Acyclic where
  lineal := hh.lineal.alloc fun s hs => by
    obtain ⟨parent, hparent⟩ := hc s (Option.some.inj hs)
    exact hh.lineal.rooted_of_parent? hparent
  bonded := hh.bonded.alloc nofun

end Heap

namespace Machine

open World

variable {host : Host} {settings : Settings} {m m' : Machine}

/-! A new machine. -/

/-- The classes of the exceptions come after the one that is their superclass. -/
theorem acyclic_installExceptions (init : Value) (kinds : List ExceptionKind) {m : Machine}
    {root : Option Ref} (hm : m.heap.Acyclic)
    (hroot : ∀ r, root = some r → ∃ parent, m.heap.parent? r = some parent) :
    (m.installExceptions init root kinds).2.heap.Acyclic := by
  induction kinds generalizing m root with
  | nil => exact hm
  | cons kind rest ih =>
    let cls : Class := { name := kind.name, superclass := root, constructor? := some init }
    have hstored : (m.heap.alloc (.cls cls)).2.Acyclic := hm.alloc_class hroot
    have hparent := Heap.parent?_alloc hm.lineal.wellFormed (.cls cls)
    refine ih (m := (m.alloc (.cls cls)).2.defineGlobal kind.name _)
      (Heap.lasting_acyclic.intern kind.name hstored) fun r hr => ?_
    show ∃ parent, (m.heap.alloc (.cls cls)).2.parent? r = some parent
    rw [hparent]
    split
    · exact ⟨_, rfl⟩
    · next hne =>
      rw [Option.orElse_eq_orElse, Option.orElse_eq_or, Option.or_eq_some_iff] at hr
      rcases hr with hr | ⟨-, hr⟩
      · exact hroot r hr
      · exact absurd (Option.some.inj hr).symm hne

theorem acyclic_new (settings : Settings) : (Machine.new settings).heap.Acyclic :=
  lasts_new settings (Heap.acyclic_new _ _ _) fun init _ hm =>
    acyclic_installExceptions init ExceptionKind.all hm nofun

/-! Sessions. -/

/-- If the next instruction lets a class inherit, the superclass does not descend from the class. -/
def InheritsUpward (m : Machine) : Prop :=
  m.opcode? = some .inherit → ∀ r s h, m.Inheriting r s h → ¬ m.heap.Descends s r

/-- A class is stored with a class as its superclass. -/
def Request.Upward (h : Heap) : Request → Prop
  | alloc (.cls c) => ∀ s, c.superclass = some s → ∃ parent, h.class? s = some parent
  | _ => True

def Activity.Upward (m : Machine) : Activity → Prop
  | instruction => m.InheritsUpward
  | _ => True

/-- The machines that come up in the sessions in which no class gets a superclass that descends from
it. -/
inductive ReachedUpward (host : Host) (settings : Settings) : Machine → Prop where
  | new : ReachedUpward host settings (Machine.new settings)
  | request {m : Machine} (hreached : ReachedUpward host settings m) (q : Request)
      (hproper : q.Proper m) (hupward : q.Upward m.heap) :
      ReachedUpward host settings (q.perform m)
  | collect {m : Machine} (hreached : ReachedUpward host settings m) :
      ReachedUpward host settings m.collect.2
  | act {m : Machine} (hreached : ReachedUpward host settings m) (a : Activity)
      (hproper : a.Proper m) (hupward : a.Upward m) : ReachedUpward host settings (a.perform host m)

theorem ReachedUpward.reached (hreached : ReachedUpward host settings m) :
    Reached host settings m := by
  induction hreached with
  | new => exact .new
  | request _ q hproper _ ih => exact ih.request q hproper
  | collect _ ih => exact ih.collect
  | act _ a hproper _ ih => exact ih.act a hproper

/-- What is found in a class of a sound machine is held by it. -/
theorem Sound.occupied_findMethod (hsound : m.Sound) {r : Ref} {name : Value} {e : Entry}
    (hfound : m.heap.findMethod r name = .found e) : m.heap.OccupiedValue e.value := by
  have hm : (World.start ⟨m, .initial m, []⟩).Covers m := hsound.covers nofun
  have hknows := (knows_entry.1 (hm.findMethod hfound)).2
  exact fun s hs => hm.heap.occupied (hknows s hs)

theorem Sound.bindsSafely (hsound : m.Sound) (hm : m.heap.Acyclic) :
    BindsSafely Heap.Acyclic m.heap := fun _ _ _ receiver hfound => {
  lineal := hm.lineal.alloc nofun
  bonded := hm.bonded.alloc fun target htarget => by
    obtain rfl := Option.some.inj htarget
    exact hsound.occupied_findMethod hfound }

/-! A class inherits. -/

section Inheriting

variable {r s : Ref} {h : Heap}

theorem Inheriting.inherits (hinheriting : m.Inheriting r s h) : m.heap.Inherits r s h := by
  obtain ⟨c, parent, hc, -, rfl⟩ := hinheriting.heap
  constructor
  · rw [Heap.parent?_update, if_pos rfl, Heap.class?_eq_some.1 hc]
    rfl
  · intro t ht
    rw [Heap.parent?_update, if_neg (Ne.symm ht)]

theorem Inheriting.bonded (hinheriting : m.Inheriting r s h) (hm : m.heap.Bonded) : h.Bonded := by
  obtain ⟨c, parent, hc, -, rfl⟩ := hinheriting.heap
  refine hm.update fun o _ => ?_
  cases o <;> rfl

/-- All chains still end exactly if the superclass does not descend from the class. -/
theorem Inheriting.lineal_iff (hinheriting : m.Inheriting r s h) (hm : m.heap.Acyclic) :
    h.Lineal ↔ ¬ m.heap.Descends s r := by
  have hbonded := hinheriting.bonded hm.bonded
  obtain ⟨-, parent, -, hparent, -⟩ := hinheriting.heap
  exact hinheriting.inherits.lineal_iff hm.lineal (hm.lineal.rooted s parent hparent)
    hbonded.wellFormed hbonded.rest

theorem InheritsUpward.acyclic (hupward : m.InheritsUpward) (hm : m.heap.Acyclic)
    (hop : m.opcode? = some .inherit) (hinheriting : m.Inheriting r s h) : h.Acyclic where
  lineal := (hinheriting.lineal_iff hm).2 (hupward hop r s h hinheriting)
  bonded := hinheriting.bonded hm.bonded

/-- Letting a class inherit takes one step, whatever becomes of its chain. -/
theorem Inheriting.instruction_eq (host : Host) (hinheriting : m.Inheriting r s h)
    (hop : m.opcode? = some .inherit) : ∃ m', instruction host m = .ok none m' ∧ m'.heap = h := by
  cases hframes : m.frames with
  | nil =>
    rw [opcode?, hframes] at hop
    cases hop
  | cons f rest =>
    have hnext : (m.atOffset (f.ip + 1)).Inheriting r s h :=
      ⟨hinheriting.high, hinheriting.subclass, hinheriting.superclass, hinheriting.heap⟩
    obtain ⟨m', hok, hheap⟩ := inherit_eq hnext
    refine ⟨m', ?_, hheap⟩
    have hexecute : execute host f.ip .inherit (m.atOffset (f.ip + 1)) = .ok none m' := by
      show proceed inherit _ = _
      unfold proceed
      rw [bind_of_ok hok]
      rfl
    exact instruction_eq_ok hframes hop hexecute

end Inheriting

/-! Every session. -/

theorem acyclic_request (hm : m.heap.Acyclic) {q : Request} (hproper : q.Proper m)
    (hupward : q.Upward m.heap) : (q.perform m).heap.Acyclic := by
  refine lasts_request hm q fun o hq => ?_
  subst hq
  cases o with
  | cls c =>
    refine Or.inr (hm.alloc_class fun s hs => ?_)
    obtain ⟨parent, hparent⟩ := hupward s hs
    exact ⟨_, Heap.parent?_eq_some.2 ⟨parent, hparent, rfl⟩⟩
  | bound b =>
    refine Or.inr ⟨hm.lineal.alloc (by simp [Object.parent?]), hm.bonded.alloc fun target htarget => ?_⟩
    obtain rfl := Option.some.inj htarget
    exact fun r hr => hproper.2 r (List.mem_append_right _ hr)
  | dict d => exact Or.inr (Heap.lasting_acyclic.alloc hm ⟨by simp [Object.parent?], rfl⟩)
  | _ => exact Or.inl ⟨⟨by simp [Object.parent?], rfl⟩, rfl⟩

section Guarding

variable [hrespects : host.Respects Heap.Acyclic]

theorem guardsAt_upward (hsound : m.Sound) (hm : m.heap.Acyclic) (hupward : m.InheritsUpward) :
    GuardsAt m.Underfed Heap.Acyclic m (instruction host) :=
  guardsAt_instruction hm (fun hop _ _ _ hinheriting => hupward.acyclic hm hop hinheriting)
    (hsound.bindsSafely hm) fun _ _ _ => inferInstance

theorem acyclic_act (hsound : m.Sound) (hm : m.heap.Acyclic) {a : Activity}
    (hupward : a.Upward m) : (a.perform host m).heap.Acyclic := by
  refine lasts_activity hm a fun ha => ?_
  subst ha
  exact (guardsAt_upward hsound hm hupward).final

/-- A session keeps all chains whole, and the machine sound. -/
theorem ReachedUpward.acyclic (horderly : host.Orderly) (hreached : ReachedUpward host settings m) :
    m.Sound ∧ m.heap.Acyclic := by
  induction hreached with
  | new => exact ⟨sound_new settings, acyclic_new settings⟩
  | request _ q hproper hupward ih =>
    obtain ⟨hsound, hm⟩ := ih
    exact ⟨(hsound.request (live_initial hsound) hproper).1, acyclic_request hm hproper hupward⟩
  | @collect m _ ih => exact ⟨ih.1.collect, Heap.lasting_acyclic.collect m.roots ih.2⟩
  | act _ a hproper hupward ih =>
    obtain ⟨hsound, hm⟩ := ih
    exact ⟨(hsound.act horderly (live_initial hsound) hproper).1, acyclic_act hsound hm hupward⟩

/-- No step goes on forever, not even the one that closes a circle. -/
theorem step_ne_endless (hsound : m.Sound) (hm : m.heap.Acyclic) :
    step host m ≠ .error .endless m' := by
  have hsound' : m.collectIfDue.Sound := by
    unfold collectIfDue
    split
    · exact hsound.collect
    · exact hsound
  have hm' : m.collectIfDue.heap.Acyclic := lasts_collectIfDue hm
  show instruction host m.collectIfDue ≠ _
  intro hendless
  by_cases hupward : m.collectIfDue.InheritsUpward
  · have hguarded : GuardsAt m.collectIfDue.Underfed Heap.Acyclic m.collectIfDue
        (instruction host) := guardsAt_upward hsound' hm' hupward
    unfold GuardsAt at hguarded
    rw [hendless] at hguarded
    exact Heap.not_circular hguarded.1.lineal hguarded.1.bonded hguarded.2
  · unfold InheritsUpward at hupward
    push Not at hupward
    obtain ⟨hop, r, s, h, hinheriting, -⟩ := hupward
    obtain ⟨m'', hok, -⟩ := hinheriting.instruction_eq host hop
    rw [hok] at hendless
    cases hendless

theorem call_ne_endless (hm : m.heap.Acyclic) (callee : Value) (count : Nat) :
    throwing () (callValue host callee count) m ≠ .error .endless m' := by
  intro hendless
  have hcall : GuardsAt True Heap.Acyclic m (throwing () (callValue host callee count)) :=
    (guardsAbove_callValue callee count m hm (Or.inl trivial)).throwing ()
  unfold GuardsAt at hcall
  rw [hendless] at hcall
  exact Heap.not_circular hcall.1.lineal hcall.1.bonded hcall.2

/-- Every chain of classes ends at a class without superclass, and whatever goes along it ends. -/
structure ChainsEnd (host : Host) (m : Machine) : Prop where
  classes : ∀ r c, m.heap.class? r = some c → m.heap.Rooted r
  methods : ∀ r name, m.heap.findMethod r name ≠ .endless
  instances : ∀ v r, m.heap.isInstanceOf v r ≠ .endless
  fields : ∀ r, m.heap.initialFields? r ≠ none
  steps : ∀ m', step host m ≠ .error .endless m'
  calls : ∀ callee (args : Array Value) m',
    throwing () (callValue host callee args.size)
      { m with stack := m.stack.push callee ++ args } ≠ .error .endless m'

/-- In sessions in which no class gets a superclass that descends from it, all chains end. The next
class that inherits is at the end of its chain exactly if the superclass does not descend from it. -/
theorem class_chains_end (horderly : host.Orderly) (hreached : ReachedUpward host settings m) :
    m.ChainsEnd host ∧
      ∀ r s h, m.Inheriting r s h → (h.Rooted r ↔ ¬ m.heap.Descends s r) := by
  obtain ⟨hsound, hm⟩ := hreached.acyclic horderly
  have hends : ¬ m.heap.Circular := Heap.not_circular hm.lineal hm.bonded
  refine ⟨⟨hm.lineal.rooted, ?_, ?_, ?_, ?_, ?_⟩, ?_⟩
  · exact fun r name hendless => hends (Heap.circular_of_climb hendless)
  · exact fun v r hendless => hends (Heap.circular_of_isInstanceOf hendless)
  · exact fun r hnone => hends (Heap.circular_of_initialFields? hnone)
  · exact fun m' => step_ne_endless hsound hm
  · intro callee args m'
    exact call_ne_endless (m := { m with stack := m.stack.push callee ++ args }) hm callee args.size
  · intro r s h hinheriting
    have hinherits := hinheriting.inherits
    constructor
    · exact fun hrooted hdescends => hinherits.not_rooted hdescends hrooted
    · intro hfree
      exact ((hinheriting.lineal_iff hm).2 hfree).rooted_of_parent? hinherits.self

end Guarding

/-! A script makes two classes. -/

section Making

variable {f : Frame} {rest : List Frame}

/-- Making a class stores one without superclass and pushes it. -/
theorem instruction_makeClass (host : Host) (hframes : m.frames = f :: rest)
    (hop : m.opcode? = some .makeClass) {index : UInt16} {name : Value}
    (hindex : f.proto.blob.shortAt? (f.ip + 1) = some index)
    (hname : f.proto.blob.constant? index = some name) :
    let made := m.heap.alloc (.cls { name := m.nameText name })
    ∃ m', instruction host m = .ok none m' ∧ m'.heap = made.2 ∧
      m'.stack = m.stack.push (.ref made.1) ∧ m'.frames = { f with ip := f.ip + 3 } :: rest := by
  intro made
  have hexecute : execute host f.ip .makeClass (m.atOffset (f.ip + 1)) = .ok none _ :=
    (proceed_bind (fetchConstant_eq hframes hindex hname) _).trans rfl
  exact ⟨_, instruction_eq_ok hframes hop hexecute, rfl, rfl, frames_atOffset hframes (f.ip + 3)⟩

theorem ReachedUpward.makeClass (hreached : ReachedUpward host settings m)
    (hframes : m.frames = f :: rest) (hop : m.opcode? = some .makeClass) {index : UInt16}
    {name : Value} (hindex : f.proto.blob.shortAt? (f.ip + 1) = some index)
    (hname : f.proto.blob.constant? index = some name) :
    let made := m.heap.alloc (.cls { name := m.nameText name })
    ∃ m', ReachedUpward host settings m' ∧ m'.heap = made.2 ∧
      m'.stack = m.stack.push (.ref made.1) ∧ m'.frames = { f with ip := f.ip + 3 } :: rest := by
  obtain ⟨m', hok, hmade⟩ := instruction_makeClass host hframes hop hindex hname
  have hafter := hreached.act .instruction ⟨trivial, nofun⟩ fun hinherit => by
    rw [hop] at hinherit
    cases hinherit
  rw [Activity.perform, hok] at hafter
  exact ⟨m', hafter, hmade⟩

/-- A script that makes two classes of one name and lets the second inherit from the first. -/
def subclassScript (name : Ref) : Blob :=
  let first := (({} : Blob).pushOp .makeClass 1).pushShort 0 1
  let second := (first.pushOp .makeClass 1).pushShort 0 1
  { second.pushOp .inherit 1 with constants := #[.ref name] }

theorem check_subclassScript {h : Heap} {i : Nat} {name : String}
    (hname : h.text? (.ref (.text i)) = some name) :
    Validation.check h (subclassScript (.text i)) = .ok () := by
  have hdecoded : Instruction.decodeAll h.captured? (subclassScript (.text i)) =
      { instructions := #[⟨0, .makeClass, .const 0, 3⟩, ⟨3, .makeClass, .const 0, 3⟩,
          ⟨6, .inherit, .none, 1⟩]
        defect? := none } := by cbv
  refine check_of_text rfl ?_
  unfold Validation.localDefect?
  rw [hdecoded]
  simp [Validation.constantDefect?, Validation.addressDefect?, Validation.expected?,
    subclassScript, Blob.constant?, Validation.Expected.admits, hname]

/-- Of two classes just made, one on top of the other, the upper may inherit from the lower. -/
theorem inheriting_made {h : Heap} (hwf : h.WellFormed) (first second : String) {callee : Value} :
    let base := h.alloc (.cls { name := first })
    let derived := base.2.alloc (.cls { name := second })
    m.heap = derived.2 → m.stack = #[callee, .ref base.1, .ref derived.1] →
      (∃ h', m.Inheriting derived.1 base.1 h') ∧ m.heap.parent? base.1 = some none ∧
        base.1 ≠ derived.1 := by
  intro base derived hheap hstack
  have hbase : m.heap.get? base.1 = some (.cls { name := first }) := by
    rw [hheap]
    exact (hwf.alloc _).get?_alloc_of_get? _ (Heap.get?_alloc_self hwf _)
  have hderived : m.heap.get? derived.1 = some (.cls { name := second }) := by
    rw [hheap]
    exact Heap.get?_alloc_self (hwf.alloc _) _
  refine ⟨⟨_, ?_, ?_, ?_, _, _, Heap.class?_eq_some.2 hderived, Heap.class?_eq_some.2 hbase, rfl⟩,
    ?_, ?_⟩
  · rw [hstack]
    exact Nat.succ_lt_succ (Nat.succ_pos 1)
  · rw [hstack]
    rfl
  · rw [hstack]
    rfl
  · rw [Heap.parent?_eq_bind, hbase]
    rfl
  · exact Heap.ne_alloc_of_get? (hwf.alloc _) _ (Heap.get?_alloc_self hwf _)

/-- The script runs up to where the second class inherits from the first. -/
theorem ReachedUpward.subclassScript (hreached : ReachedUpward host settings m)
    (hidle : m.frames = []) (hempty : m.stack = #[]) (hwf : m.heap.WellFormed) {i : Nat}
    {name : String} (hname : m.heap.text? (.ref (.text i)) = some name) :
    ∃ q base derived h', ReachedUpward host settings q ∧ q.opcode? = some .inherit ∧
      q.Inheriting derived base h' ∧ q.heap.parent? base = some none ∧ base ≠ derived := by
  let script : Prototype := .script (Machine.subclassScript (.text i))
  have hproper : (Activity.enter script).Proper m :=
    Activity.proper_enter_of_text hidle (check_subclassScript hname) rfl hname
  have hbegun : ReachedUpward host settings (m.entered script) :=
    hreached.act (.enter script) hproper trivial
  obtain ⟨callee, hcallee⟩ : ∃ callee, (m.entered script).stack = m.stack.push callee := ⟨_, rfl⟩
  obtain ⟨f, hframes, hproto, hip⟩ : ∃ f, (m.entered script).frames = f :: m.frames ∧
      f.proto = script ∧ f.ip = 0 := ⟨_, rfl, rfl, rfl⟩
  have hconstant : f.proto.blob.constant? 0 = some (.ref (.text i)) := by rw [hproto]; rfl
  have hop : (m.entered script).opcode? = some .makeClass := by
    rw [opcode?_eq hframes, hproto, hip]
    rfl
  have hindex : f.proto.blob.shortAt? (f.ip + 1) = some 0 := by rw [hproto, hip]; rfl
  obtain ⟨p, hp, hpheap, hpstack, hpframes⟩ := hbegun.makeClass hframes hop hindex hconstant
  have hop' : p.opcode? = some .makeClass := by
    rw [opcode?_eq hpframes, hproto, hip]
    rfl
  have hindex' : f.proto.blob.shortAt? (f.ip + 3 + 1) = some 0 := by rw [hproto, hip]; rfl
  obtain ⟨q, hq, hqheap, hqstack, hqframes⟩ := hp.makeClass hpframes hop' hindex' hconstant
  rw [hpheap] at hqheap hqstack
  rw [hpstack, hcallee, hempty] at hqstack
  obtain ⟨⟨h', hinheriting⟩, hroot, hne⟩ :=
    inheriting_made ((hwf.alloc _).alloc _) _ _ hqheap hqstack
  refine ⟨q, _, _, h', hq, ?_, hinheriting, hroot, hne⟩
  rw [opcode?_eq hqframes, hproto, hip]
  rfl

end Making

/-- The second of two classes inherits from the first, and both chains end. -/
theorem class_chains_end_withSubclass : ∃ m base derived,
    ReachedUpward (Host.stock .closed) {} m ∧ m.heap.parent? derived = some (some base) ∧
      m.heap.parent? base = some none ∧ m.ChainsEnd (Host.stock .closed) := by
  have hnew : ReachedUpward (Host.stock .closed) {} _ := .new
  have hnamed := hnew.request (.intern "Node") ⟨trivial, nofun⟩ trivial
  have hwf := (sound_new {}).heap
  obtain ⟨q, base, derived, h', hq, hop, hinheriting, hroot, hne⟩ :=
    hnamed.subclassScript rfl rfl (hwf.intern "Node") (Heap.text?_intern_self hwf "Node")
  have hupward : q.InheritsUpward := by
    intro _ r s h hother
    obtain rfl := Value.ref.inj (Option.some.inj (hother.subclass.symm.trans hinheriting.subclass))
    obtain rfl := Value.ref.inj (hother.superclass.symm.trans hinheriting.superclass)
    exact Heap.not_descends_of_root hroot hne
  have hafter := hq.act .instruction ⟨trivial, nofun⟩ hupward
  obtain ⟨m, hok, hheap⟩ := hinheriting.instruction_eq (Host.stock .closed) hop
  rw [Activity.perform, hok] at hafter
  have hinherits := hinheriting.inherits
  refine ⟨m, base, derived, hafter, ?_, ?_, (class_chains_end Host.orderly_stock hafter).1⟩
  · rw [hheap]
    exact hinherits.self
  · rw [hheap, hinherits.others base hne]
    exact hroot

/-- A script that lets the first object inherit from itself. -/
def selfScript : Blob :=
  let pushed := (({ constants := #[.ref (.object 0)] } : Blob).pushOp .pushConst 1).pushShort 0 1
  ((pushed.pushOp .pushConst 1).pushShort 0 1).pushOp .inherit 1

/-- Nothing keeps a class from a superclass that descends from it. -/
example :
    let first : Machine := { bare with heap := (bare.heap.alloc (.cls { name := "A" })).2 }
    let m := states .idle (first.entered (.script selfScript)) 3
    Validation.check first.heap selfScript = .ok () ∧
      m.heap.reaches (.object 1) m.heap.chainLimit (.object 0) = .endless :=
  ⟨by cbv, by decide +kernel⟩

end Machine

end ScriptMachine
