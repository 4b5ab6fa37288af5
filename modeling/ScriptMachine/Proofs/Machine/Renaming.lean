import Mathlib.Data.List.Forall2
import Mathlib.Order.Basic
import ScriptMachine.Proofs.Machine.Coverage
import ScriptMachine.Proofs.Table.Contents

/-!
Renamings of references. A renaming pairs references of one heap with references of another, one to
one, objects with objects and texts with equal texts. Data of the two heaps is alike if it is the
same but for paired references; tables are alike if they have the same entries, in whatever slots.

A renaming grows as new references are paired. It can also be narrowed to the references that data
has, and the data stays alike.
-/

namespace ScriptMachine

/-- What a heap has that never changes: its texts, and its functions and closures. -/
structure Fixture where
  pool : Pool
  code : Ref → Object → Prop
  wellFormed : pool.WellFormed

namespace Fixture

/-- A reference leads to a closure of the function. -/
def Runs (x : Fixture) (r : Ref) (p : Prototype) : Prop := ∃ c, x.code r (.closure c) ∧ c.proto = p

/-- Nothing is lost. -/
structure Le (x y : Fixture) : Prop where
  texts : ∀ {i t}, x.pool.arena.get? i = some t → y.pool.arena.get? i = some t
  code : ∀ {r o}, x.code r o → y.code r o

instance : Preorder Fixture where
  le := Le
  le_refl _ := ⟨id, id⟩
  le_trans _ _ _ hxy hyz := ⟨hyz.texts ∘ hxy.texts, hyz.code ∘ hxy.code⟩

/-- A text that is there before and after is the same, and code in a set is not lost. -/
structure Narrows (K : Ref → Prop) (x y : Fixture) : Prop where
  texts : ∀ {i t u}, x.pool.arena.get? i = some t → y.pool.arena.get? i = some u → t = u
  code : ∀ {r o}, K r → x.code r o → y.code r o

variable {x y : Fixture} {K : Ref → Prop} {r : Ref} {p : Prototype}

theorem Le.narrows (h : x ≤ y) : Narrows (fun _ => True) x y where
  texts ht hu := Option.some.inj ((h.texts ht).symm.trans hu)
  code _ := h.code

theorem Runs.narrow (hy : Narrows K x y) (h : x.Runs r p) (hr : K r) : y.Runs r p := by
  obtain ⟨c, hc, hp⟩ := h
  exact ⟨c, hy.code hr hc, hp⟩

end Fixture

/-- References of a heap on the left, and those of a heap on the right that stand for them. -/
structure Renaming where
  left : Fixture
  right : Fixture
  pairs : Ref → Ref → Prop
  functional : ∀ {r s s'}, pairs r s → pairs r s' → s = s'
  injective : ∀ {r r' s}, pairs r s → pairs r' s → r = r'
  kinds : ∀ {r s}, pairs r s → r.isText = s.isText
  texts : ∀ {i j}, pairs (.text i) (.text j) →
    ∃ t, left.pool.arena.get? i = some t ∧ right.pool.arena.get? j = some t

namespace Renaming

/-- A pair of references stays a pair if both are among those that are kept. -/
structure Narrows (K L : Ref → Prop) (ρ σ : Renaming) : Prop where
  pairs : ∀ {r s}, K r → L s → ρ.pairs r s → σ.pairs r s
  left : ρ.left.Narrows K σ.left
  right : ρ.right.Narrows L σ.right

/-- More references are paired, over heaps that have more. -/
structure Le (ρ σ : Renaming) : Prop where
  pairs : ∀ {r s}, ρ.pairs r s → σ.pairs r s
  left : ρ.left ≤ σ.left
  right : ρ.right ≤ σ.right

instance : Preorder Renaming where
  le := Le
  le_refl _ := ⟨id, le_refl _, le_refl _⟩
  le_trans _ _ _ hρσ hστ :=
    ⟨hστ.pairs ∘ hρσ.pairs, hρσ.left.trans hστ.left, hρσ.right.trans hστ.right⟩

variable {ρ σ : Renaming} {K L : Ref → Prop}

theorem Le.narrows (h : ρ ≤ σ) : Narrows (fun _ => True) (fun _ => True) ρ σ where
  pairs _ _ := h.pairs
  left := Fixture.Le.narrows h.left
  right := Fixture.Le.narrows h.right

end Renaming

/-- Data with references that can be renamed. -/
class Renamed (α : Type) where
  Alike : Renaming → α → α → Prop
  mono : ∀ {ρ σ : Renaming} {a b : α}, ρ ≤ σ → Alike ρ a b → Alike σ a b

namespace Renamed

/-- Data without references is alike if it is the same. -/
@[reducible]
def plain (α : Type) : Renamed α := ⟨fun _ a b => a = b, fun _ h => h⟩

end Renamed

/-- Two pieces of data are the same but for paired references. -/
abbrev Renaming.Alike {α : Type} [Renamed α] (ρ : Renaming) (a b : α) : Prop := Renamed.Alike ρ a b

theorem Renaming.Alike.mono {α : Type} [Renamed α] {ρ σ : Renaming} {a b : α} (h : ρ.Alike a b)
    (hle : ρ ≤ σ) : σ.Alike a b := Renamed.mono hle h

instance : Renamed Unit := .plain Unit
instance : Renamed Bool := .plain Bool
instance : Renamed Nat := .plain Nat
instance : Renamed Char := .plain Char
instance : Renamed Float := .plain Float
instance : Renamed UInt8 := .plain UInt8
instance : Renamed UInt16 := .plain UInt16

variable {α β : Type} {ρ σ : Renaming} {K L : Ref → Prop}

/-! Options, lists and arrays. -/

theorem rel_imp_of_mem {R S : α → β → Prop} {a? : Option α} {b? : Option β}
    (h : Option.Rel R a? b?) (hRS : ∀ a b, a? = some a → b? = some b → R a b → S a b) :
    Option.Rel S a? b? := by
  cases h with
  | none => exact .none
  | some h => exact .some (hRS _ _ rfl rfl h)

theorem forall₂_imp_of_mem {R S : α → β → Prop} {as : List α} {bs : List β}
    (h : List.Forall₂ R as bs) (hRS : ∀ a ∈ as, ∀ b ∈ bs, R a b → S a b) : List.Forall₂ S as bs := by
  induction h with
  | nil => exact .nil
  | cons hab _ ih =>
    refine .cons (hRS _ List.mem_cons_self _ List.mem_cons_self hab) (ih ?_)
    exact fun a ha b hb => hRS a (List.mem_cons_of_mem _ ha) b (List.mem_cons_of_mem _ hb)

instance [Renamed α] : Renamed (Option α) where
  Alike ρ := Option.Rel ρ.Alike
  mono hle h := rel_imp_of_mem h fun _ _ _ _ hab => Renamed.mono hle hab

instance [Renamed α] : Renamed (List α) where
  Alike ρ := List.Forall₂ ρ.Alike
  mono hle h := h.imp fun _ _ hab => Renamed.mono hle hab

instance [Renamed α] : Renamed (Array α) where
  Alike ρ as bs := List.Forall₂ ρ.Alike as.toList bs.toList
  mono hle h := h.imp fun _ _ hab => Renamed.mono hle hab

instance [Renamed α] [Renamed β] : Renamed (α × β) where
  Alike ρ p q := ρ.Alike p.1 q.1 ∧ ρ.Alike p.2 q.2
  mono hle h := ⟨Renamed.mono hle h.1, Renamed.mono hle h.2⟩

/-! Values. -/

instance : Renamed Ref where
  Alike ρ := ρ.pairs
  mono hle := hle.pairs

inductive Value.Alike (ρ : Renaming) : Value → Value → Prop where
  | nil : Alike ρ .nil .nil
  | bool (b : Bool) : Alike ρ (.bool b) (.bool b)
  | number (x : Float) : Alike ρ (.number x) (.number x)
  | ref {r s : Ref} (h : ρ.pairs r s) : Alike ρ (.ref r) (.ref s)

theorem Value.Alike.narrow (hσ : Renaming.Narrows K L ρ σ) {v w : Value} (h : v.Alike ρ w)
    (hK : ∀ r ∈ v.refs, K r) (hL : ∀ s ∈ w.refs, L s) : v.Alike σ w := by
  cases h with
  | nil => exact .nil
  | bool b => exact .bool b
  | number x => exact .number x
  | ref h => exact .ref (hσ.pairs (hK _ List.mem_cons_self) (hL _ List.mem_cons_self) h)

instance : Renamed Value where
  Alike := Value.Alike
  mono hle h := h.narrow hle.narrows (fun _ _ => trivial) fun _ _ => trivial

/-- Lists of values that are kept stay alike. -/
theorem forall₂_narrow (hσ : Renaming.Narrows K L ρ σ) {vs ws : List Value}
    (h : List.Forall₂ ρ.Alike vs ws) (hK : ∀ v ∈ vs, ∀ r ∈ v.refs, K r)
    (hL : ∀ w ∈ ws, ∀ s ∈ w.refs, L s) : List.Forall₂ σ.Alike vs ws :=
  forall₂_imp_of_mem h fun v hv w hw hvw => Value.Alike.narrow hσ hvw (hK v hv) (hL w hw)

theorem forall₂_pairs_narrow (hσ : Renaming.Narrows K L ρ σ) {rs ss : List Ref}
    (h : List.Forall₂ ρ.Alike rs ss) (hK : ∀ r ∈ rs, K r) (hL : ∀ s ∈ ss, L s) :
    List.Forall₂ σ.Alike rs ss :=
  forall₂_imp_of_mem h fun r hr s hs hrs => hσ.pairs (hK r hr) (hL s hs) hrs

theorem rel_narrow (hσ : Renaming.Narrows K L ρ σ) {v? w? : Option Value}
    (h : Option.Rel ρ.Alike v? w?) (hK : ∀ v, v? = some v → ∀ r ∈ v.refs, K r)
    (hL : ∀ w, w? = some w → ∀ s ∈ w.refs, L s) : Option.Rel σ.Alike v? w? :=
  rel_imp_of_mem h fun v w hv hw hvw => Value.Alike.narrow hσ hvw (hK v hv) (hL w hw)

/-! Texts and keys. -/

/-- Values that are alike refer to the same text. -/
theorem Value.Alike.textOf? {v w : Value} (h : v.Alike ρ w) :
    ρ.left.pool.textOf? v = ρ.right.pool.textOf? w := by
  cases h with
  | @ref r s hrs =>
    have hkind := ρ.kinds hrs
    cases r with
    | object i =>
      cases s with
      | object j => rfl
      | text j => cases hkind
    | text i =>
      cases s with
      | object j => cases hkind
      | text j =>
        obtain ⟨x, hi, hj⟩ := ρ.texts hrs
        exact hi.trans hj.symm
  | _ => rfl

theorem Value.Alike.holds {v w : Value} (h : v.Alike ρ w) : ρ.left.pool.Holds v ∧ ρ.right.pool.Holds w := by
  cases h with
  | @ref r s hrs =>
    have hkind := ρ.kinds hrs
    constructor
    · rintro i ⟨⟩
      cases s with
      | object j => cases hkind
      | text j =>
        obtain ⟨x, hi, -⟩ := ρ.texts hrs
        exact ⟨x, hi⟩
    · rintro j ⟨⟩
      cases r with
      | object i => cases hkind
      | text i =>
        obtain ⟨x, -, hj⟩ := ρ.texts hrs
        exact ⟨x, hj⟩
  | _ => exact ⟨nofun, nofun⟩

/-- A text that two pools hold is the same in both if they agree on the texts that both hold. -/
theorem Pool.textOf?_of_holds {p q : Pool} {v : Value} (hp : p.Holds v) (hq : q.Holds v)
    (hagree : ∀ {i x y}, p.arena.get? i = some x → q.arena.get? i = some y → x = y) :
    q.textOf? v = p.textOf? v := by
  cases v with
  | ref r =>
    cases r with
    | object i => rfl
    | text i =>
      obtain ⟨x, hx⟩ := hp i rfl
      obtain ⟨y, hy⟩ := hq i rfl
      show q.arena.get? i = p.arena.get? i
      rw [hx, hy, hagree hx hy]
  | _ => rfl

theorem Value.Alike.eq_iff {v v' w w' : Value} (h : v.Alike ρ w) (h' : v'.Alike ρ w') :
    v = v' ↔ w = w' := by
  cases h with
  | ref h =>
    cases h' with
    | ref h' =>
      simp only [Value.ref.injEq]
      constructor
      · rintro rfl
        exact ρ.functional h h'
      · rintro rfl
        exact ρ.injective h h'
    | _ => simp
  | _ => cases h' <;> simp

theorem Value.Alike.equals {v v' w w' : Value} (h : v.Alike ρ w) (h' : v'.Alike ρ w') :
    v.equals v' = w.equals w' := by
  have heq := h.eq_iff h'
  cases h with
  | ref h =>
    cases h' with
    | ref h' =>
      simp only [Value.ref.injEq] at heq
      exact decide_eq_decide.2 heq
    | _ => rfl
  | _ => cases h' <;> rfl

/-- Keys that are alike are the same in the same pairs. -/
theorem Value.Alike.sameKey {v v' w w' : Value} (h : v.Alike ρ w) (h' : v'.Alike ρ w') :
    ρ.left.pool.sameKey v v' = ρ.right.pool.sameKey w w' := by
  have heq := h.eq_iff h'
  have htext := h.textOf?
  have htext' := h'.textOf?
  cases h with
  | ref h =>
    cases h' with
    | ref h' =>
      simp only [Value.ref.injEq] at heq
      simp only [Pool.textOf?] at htext htext'
      simp only [Pool.sameKey, heq, htext, htext']
    | _ => rfl
  | _ => cases h' <;> rfl

theorem Value.Alike.isText {v w : Value} (h : v.Alike ρ w) : v.isText = w.isText := by
  cases h with
  | ref h => exact ρ.kinds h
  | _ => rfl

theorem Value.Alike.isNumber {v w : Value} (h : v.Alike ρ w) : v.isNumber = w.isNumber := by
  cases h <;> rfl

theorem Value.Alike.isBool {v w : Value} (h : v.Alike ρ w) : v.isBool = w.isBool := by
  cases h <;> rfl

theorem Value.Alike.isNil {v w : Value} (h : v.Alike ρ w) : v.isNil = w.isNil := by
  cases h <;> rfl

/-! Tables. -/

structure Entry.Alike (ρ : Renaming) (e e' : Entry) : Prop where
  key : ρ.Alike e.key e'.key
  value : ρ.Alike e.value e'.value
  kind : e.kind = e'.kind

theorem Entry.Alike.narrow (hσ : Renaming.Narrows K L ρ σ) {e e' : Entry} (h : e.Alike ρ e')
    (hK : ∀ r ∈ e.key.refs ++ e.value.refs, K r) (hL : ∀ s ∈ e'.key.refs ++ e'.value.refs, L s) :
    e.Alike σ e' := by
  rw [List.forall_mem_append] at hK hL
  exact ⟨h.key.narrow hσ hK.1 hL.1, h.value.narrow hσ hK.2 hL.2, h.kind⟩

instance : Renamed Entry where
  Alike := Entry.Alike
  mono hle h := h.narrow hle.narrows (fun _ _ => trivial) fun _ _ => trivial

/-- Two tables in order with the same entries. -/
structure Table.Alike (ρ : Renaming) (t u : Table) : Prop where
  left : t.InOrder ρ.left.pool
  right : u.InOrder ρ.right.pool
  forth : ∀ e ∈ t.entries, ∃ e' ∈ u.entries, e.Alike ρ e'
  back : ∀ e' ∈ u.entries, ∃ e ∈ t.entries, e.Alike ρ e'

theorem Table.Alike.narrow (hσ : Renaming.Narrows K L ρ σ) {t u : Table} (h : t.Alike ρ u)
    (hK : ∀ r ∈ t.refs, K r) (hL : ∀ s ∈ u.refs, L s) : t.Alike σ u := by
  have hentry {e e' : Entry} (he : e ∈ t.entries) (he' : e' ∈ u.entries) (hee : e.Alike ρ e') :
      e.Alike σ e' := by
    apply hee.narrow hσ
    · exact fun r hr => hK r (List.mem_flatMap.2 ⟨e, he, hr⟩)
    · exact fun s hs => hL s (List.mem_flatMap.2 ⟨e', he', hs⟩)
  have hforth : ∀ e ∈ t.entries, ∃ e' ∈ u.entries, e.Alike σ e' := by
    intro e he
    obtain ⟨e', he', hee⟩ := h.forth e he
    exact ⟨e', he', hentry he he' hee⟩
  have hback : ∀ e' ∈ u.entries, ∃ e ∈ t.entries, e.Alike σ e' := by
    intro e' he'
    obtain ⟨e, he, hee⟩ := h.back e' he'
    exact ⟨e, he, hentry he he' hee⟩
  have hleft : ∀ e ∈ t.entries, σ.left.pool.Holds e.key := by
    intro e he
    obtain ⟨e', -, hee⟩ := hforth e he
    exact hee.key.holds.1
  have hright : ∀ e' ∈ u.entries, σ.right.pool.Holds e'.key := by
    intro e' he'
    obtain ⟨e, -, hee⟩ := hback e' he'
    exact hee.key.holds.2
  refine ⟨h.left.overPool hleft fun e he => ?_, h.right.overPool hright fun e he => ?_, hforth, hback⟩
  · exact Pool.textOf?_of_holds (h.left.held e he) (hleft e he) hσ.left.texts
  · exact Pool.textOf?_of_holds (h.right.held e he) (hright e he) hσ.right.texts

instance : Renamed Table where
  Alike := Table.Alike
  mono hle h := h.narrow hle.narrows (fun _ _ => trivial) fun _ _ => trivial

/-! Functions and frames. -/

/-- Two functions that are the same but for their constants. -/
inductive Prototype.Alike (ρ : Renaming) (p : Prototype) : Prototype → Prop where
  | intro {constants : Array Value} (h : ρ.Alike p.blob.constants constants) :
    Alike ρ p { p with blob := { p.blob with constants } }

theorem Prototype.Alike.narrow (hσ : Renaming.Narrows K L ρ σ) {p q : Prototype} (h : p.Alike ρ q)
    (hK : ∀ v ∈ p.blob.constants, ∀ r ∈ v.refs, K r)
    (hL : ∀ w ∈ q.blob.constants, ∀ s ∈ w.refs, L s) : p.Alike σ q := by
  cases h with
  | intro h =>
    refine .intro (forall₂_narrow hσ h ?_ ?_)
    · exact fun v hv => hK v (Array.mem_toList_iff.1 hv)
    · exact fun w hw => hL w (Array.mem_toList_iff.1 hw)

instance : Renamed Prototype where
  Alike := Prototype.Alike
  mono hle h := h.narrow hle.narrows (fun _ _ _ _ => trivial) fun _ _ _ _ => trivial

structure Frame.Alike (ρ : Renaming) (f g : Frame) : Prop where
  closure : ρ.pairs f.closure g.closure
  proto : ρ.Alike f.proto g.proto
  ip : f.ip = g.ip
  base : f.base = g.base
  left : ρ.left.Runs f.closure f.proto
  right : ρ.right.Runs g.closure g.proto

theorem Frame.Alike.narrow (hσ : Renaming.Narrows K L ρ σ) {f g : Frame} (h : f.Alike ρ g)
    (hK : K f.closure) (hL : L g.closure) (hK' : ∀ v ∈ f.proto.blob.constants, ∀ r ∈ v.refs, K r)
    (hL' : ∀ w ∈ g.proto.blob.constants, ∀ s ∈ w.refs, L s) : f.Alike σ g where
  closure := hσ.pairs hK hL h.closure
  proto := h.proto.narrow hσ hK' hL'
  ip := h.ip
  base := h.base
  left := h.left.narrow hσ.left hK
  right := h.right.narrow hσ.right hL

instance : Renamed Frame where
  Alike := Frame.Alike
  mono hle h := h.narrow hle.narrows trivial trivial (fun _ _ _ _ => trivial)
    fun _ _ _ _ => trivial

/-! Regions and completions. -/

structure Region.Alike (ρ : Renaming) (g g' : Region) : Prop where
  handler : g.handler? = g'.handler?
  block : g.finally? = g'.finally?
  filter : ρ.Alike g.filter? g'.filter?
  stackDepth : g.stackDepth = g'.stackDepth
  frameDepth : g.frameDepth = g'.frameDepth

instance : Renamed Region where
  Alike := Region.Alike
  mono hle h := { h with filter := h.filter.mono hle }

inductive Completion.Alike (ρ : Renaming) : Completion → Completion → Prop where
  | resume (offset : Nat) : Alike ρ (.resume offset) (.resume offset)
  | handle (handler : Nat) {e e' : Value} (h : ρ.Alike e e') :
    Alike ρ (.handle handler e) (.handle handler e')
  | rethrow {e e' : Value} (h : ρ.Alike e e') : Alike ρ (.rethrow e) (.rethrow e')
  | giveBack {v v' : Value} (h : ρ.Alike v v') : Alike ρ (.giveBack v) (.giveBack v')

theorem Completion.Alike.narrow (hσ : Renaming.Narrows K L ρ σ) {c c' : Completion}
    (h : c.Alike ρ c') (hK : ∀ v, c.value? = some v → ∀ r ∈ v.refs, K r)
    (hL : ∀ v, c'.value? = some v → ∀ s ∈ v.refs, L s) : c.Alike σ c' := by
  cases h with
  | resume offset => exact .resume offset
  | handle handler h => exact .handle handler (h.narrow hσ (hK _ rfl) (hL _ rfl))
  | rethrow h => exact .rethrow (h.narrow hσ (hK _ rfl) (hL _ rfl))
  | giveBack h => exact .giveBack (h.narrow hσ (hK _ rfl) (hL _ rfl))

structure Pending.Alike (ρ : Renaming) (p p' : Pending) : Prop where
  tryDepth : p.tryDepth = p'.tryDepth
  frameDepth : p.frameDepth = p'.frameDepth
  completion : p.completion.Alike ρ p'.completion

instance : Renamed Pending where
  Alike := Pending.Alike
  mono hle h :=
    ⟨h.tryDepth, h.frameDepth, h.completion.narrow hle.narrows (fun _ _ _ _ => trivial)
      fun _ _ _ _ => trivial⟩

/-! Objects. -/

structure Class.Alike (ρ : Renaming) (c d : Class) : Prop where
  name : c.name = d.name
  superclass : ρ.Alike c.superclass d.superclass
  methods : ρ.Alike c.methods d.methods
  staticMethods : ρ.Alike c.staticMethods d.staticMethods
  defaults : ρ.Alike c.defaults d.defaults
  statics : ρ.Alike c.statics d.statics
  constructor? : ρ.Alike c.constructor? d.constructor?

instance : Renamed Class where
  Alike := Class.Alike
  mono hle h :=
    ⟨h.name, h.superclass.mono hle, h.methods.mono hle, h.staticMethods.mono hle,
      h.defaults.mono hle, h.statics.mono hle, h.constructor?.mono hle⟩

inductive Object.Alike (ρ : Renaming) : Object → Object → Prop where
  | function {p q : Prototype} (h : ρ.Alike p q) : Alike ρ (.function p) (.function q)
  | closure {c d : Closure} (hfunction : ρ.pairs c.function d.function)
    (hproto : ρ.Alike c.proto d.proto) (hupvalues : ρ.Alike c.upvalues d.upvalues) :
    Alike ρ (.closure c) (.closure d)
  | opened (slot : Nat) : Alike ρ (.upvalue (.opened slot)) (.upvalue (.opened slot))
  | closed {v w : Value} (h : ρ.Alike v w) :
    Alike ρ (.upvalue (.closed v)) (.upvalue (.closed w))
  | native (n : NativeFunction) : Alike ρ (.native n) (.native n)
  | bound {b c : BoundMethod} (hreceiver : ρ.Alike b.receiver c.receiver)
    (hmethod : ρ.Alike b.method c.method) : Alike ρ (.bound b) (.bound c)
  | cls {c d : Class} (h : ρ.Alike c d) : Alike ρ (.cls c) (.cls d)
  | inst {i j : Instance} (hcls : ρ.pairs i.cls j.cls) (hfields : ρ.Alike i.fields j.fields) :
    Alike ρ (.inst i) (.inst j)
  | array {xs ys : Array Value} (h : ρ.Alike xs ys) : Alike ρ (.array xs) (.array ys)
  | dict {c d : Dict} (hkeys : ρ.Alike c.keys d.keys) (htable : ρ.Alike c.table d.table) :
    Alike ρ (.dict c) (.dict d)
  | range (r : Range) : Alike ρ (.range r) (.range r)
  | switch {s t : SwitchTable} (hcases : ρ.Alike s.cases t.cases) (hdefault : s.default? = t.default?)
    (hexit : s.exit = t.exit) : Alike ρ (.switch s) (.switch t)

/-- The constants that a closure has from its function. -/
def Object.constants : Object → Array Value
  | .closure c => c.proto.blob.constants
  | _ => #[]

theorem Object.Alike.narrow (hσ : Renaming.Narrows K L ρ σ) {o o' : Object} (h : o.Alike ρ o')
    (hK : ∀ r ∈ o.refs, K r) (hL : ∀ s ∈ o'.refs, L s)
    (hK' : ∀ v ∈ o.constants, ∀ r ∈ v.refs, K r)
    (hL' : ∀ w ∈ o'.constants, ∀ s ∈ w.refs, L s) : o.Alike σ o' := by
  cases h with
  | function h =>
    rw [refs, List.forall_mem_flatMap] at hK hL
    simp only [Array.mem_toList_iff] at hK hL
    exact .function (h.narrow hσ hK hL)
  | closure hfunction hproto hupvalues =>
    rw [refs, List.forall_mem_cons] at hK hL
    exact .closure (hσ.pairs hK.1 hL.1 hfunction) (hproto.narrow hσ hK' hL')
      (forall₂_pairs_narrow hσ hupvalues hK.2 hL.2)
  | opened slot => exact .opened slot
  | closed h => exact .closed (h.narrow hσ hK hL)
  | native n => exact .native n
  | bound hreceiver hmethod =>
    rw [refs, List.forall_mem_append] at hK hL
    exact .bound (hreceiver.narrow hσ hK.1 hL.1) (hmethod.narrow hσ hK.2 hL.2)
  | cls h =>
    simp only [refs, List.forall_mem_append] at hK hL
    obtain ⟨⟨⟨⟨⟨hK₁, hK₂⟩, hK₃⟩, hK₄⟩, hK₅⟩, hK₆⟩ := hK
    obtain ⟨⟨⟨⟨⟨hL₁, hL₂⟩, hL₃⟩, hL₄⟩, hL₅⟩, hL₆⟩ := hL
    refine .cls ⟨h.name, ?_, h.methods.narrow hσ hK₂ hL₂, h.staticMethods.narrow hσ hK₃ hL₃,
      h.defaults.narrow hσ hK₄ hL₄, h.statics.narrow hσ hK₅ hL₅, ?_⟩
    · refine rel_imp_of_mem h.superclass fun r s hr hs hrs => hσ.pairs (hK₁ r ?_) (hL₁ s ?_) hrs
      · rw [hr]
        exact List.mem_singleton_self r
      · rw [hs]
        exact List.mem_singleton_self s
    · refine rel_narrow hσ h.constructor? (fun v hv r hr => hK₆ r ?_) fun w hw s hs => hL₆ s ?_
      · rw [hv]
        exact hr
      · rw [hw]
        exact hs
  | inst hcls hfields =>
    rw [refs, List.forall_mem_cons] at hK hL
    exact .inst (hσ.pairs hK.1 hL.1 hcls) (hfields.narrow hσ hK.2 hL.2)
  | array h =>
    rw [refs, List.forall_mem_flatMap] at hK hL
    exact .array (forall₂_narrow hσ h hK hL)
  | dict hkeys htable =>
    simp only [refs, List.forall_mem_append, List.forall_mem_flatMap] at hK hL
    exact .dict (forall₂_narrow hσ hkeys hK.1 hL.1) (htable.narrow hσ hK.2 hL.2)
  | range r => exact .range r
  | switch hcases hdefault hexit => exact .switch (hcases.narrow hσ hK hL) hdefault hexit

instance : Renamed Object where
  Alike := Object.Alike
  mono hle h := h.narrow hle.narrows (fun _ _ => trivial) (fun _ _ => trivial)
    (fun _ _ _ _ => trivial) fun _ _ _ _ => trivial

/-! Results. -/

namespace Machine

inductive Signal.Alike (ρ : Renaming) : Signal → Signal → Prop where
  | fault (f : Fault) : Alike ρ (.fault f) (.fault f)
  | raised {e e' : Value} (h : ρ.Alike e e') : Alike ρ (.raised e) (.raised e')
  | endless : Alike ρ .endless .endless
  | crash : Alike ρ .crash .crash

instance : Renamed Signal where
  Alike := Signal.Alike
  mono hle h := by
    cases h with
    | raised h => exact .raised (h.mono hle)
    | fault f => exact .fault f
    | endless => exact .endless
    | crash => exact .crash

inductive Ending.Alike (ρ : Renaming) : Ending → Ending → Prop where
  | returned {v w : Value} (h : ρ.Alike v w) : Alike ρ (.returned v) (.returned w)
  | halted (status : UInt8) : Alike ρ (.halted status) (.halted status)

instance : Renamed Ending where
  Alike := Ending.Alike
  mono hle h := by
    cases h with
    | returned h => exact .returned (h.mono hle)
    | halted status => exact .halted status

end Machine

end ScriptMachine
