import ScriptMachine.Proofs.Heap.Walks
import ScriptMachine.Proofs.Machine.Renaming.Heaps

/-!
Questions to heaps that are the same but for a renaming. Types, truth, names, class chains, what can
be called and the texts of values come out the same, or come to data that is alike. The arenas may
have different numbers of slots; a search along references gets more steps than it needs in both.
-/

namespace ScriptMachine

open Machine

/-- Searches that end in the same way. -/
inductive Search.Alike {α : Type} [Renamed α] (ρ : Renaming) : Search α → Search α → Prop where
  | found {a b : α} (h : ρ.Alike a b) : Alike ρ (.found a) (.found b)
  | absent : Alike ρ .absent .absent
  | endless : Alike ρ .endless .endless

instance {α : Type} [Renamed α] : Renamed (Search α) where
  Alike := Search.Alike
  mono hle h := by
    cases h with
    | found h => exact .found (h.mono hle)
    | absent => exact .absent
    | endless => exact .endless

/-- What can be called is the same; of a closure it is known that it is one of its function. -/
inductive Callee.Alike (ρ : Renaming) : Callee → Callee → Prop where
  | closure {r s : Ref} {p q : Prototype} (hrs : ρ.pairs r s) (hproto : ρ.Alike p q)
    (hleft : ρ.left.Runs r p) (hright : ρ.right.Runs s q) : Alike ρ (.closure r p) (.closure s q)
  | native (n : NativeFunction) : Alike ρ (.native n) (.native n)
  | bound {b c : BoundMethod} (hreceiver : ρ.Alike b.receiver c.receiver)
    (hmethod : ρ.Alike b.method c.method) : Alike ρ (.bound b) (.bound c)
  | cls {r s : Ref} {c d : Class} (hrs : ρ.pairs r s) (hcls : ρ.Alike c d) :
    Alike ρ (.cls r c) (.cls s d)

instance : Renamed Callee where
  Alike := Callee.Alike
  mono hle h := by
    have hnarrows := Renaming.Le.narrows hle
    cases h with
    | closure hrs hproto hleft hright =>
      exact .closure (hle.pairs hrs) (hproto.mono hle) (hleft.narrow hnarrows.left trivial)
        (hright.narrow hnarrows.right trivial)
    | native n => exact .native n
    | bound hreceiver hmethod => exact .bound (hreceiver.mono hle) (hmethod.mono hle)
    | cls hrs hcls => exact .cls (hle.pairs hrs) (hcls.mono hle)

theorem alike_size {α : Type} [Renamed α] {ρ : Renaming} {as bs : Array α} (h : ρ.Alike as bs) :
    as.size = bs.size := by
  rw [← Array.length_toList, ← Array.length_toList]
  exact List.Forall₂.length_eq h

theorem alike_isEmpty {α : Type} [Renamed α] {ρ : Renaming} {as bs : Array α} (h : ρ.Alike as bs) :
    as.isEmpty = bs.isEmpty := by
  rw [Array.isEmpty, Array.isEmpty, alike_size h]

theorem alike_bind {α β : Type} [Renamed α] [Renamed β] {ρ : Renaming} {a? b? : Option α}
    (h : ρ.Alike a? b?) {f g : α → Option β} (hfg : ∀ a b, ρ.Alike a b → ρ.Alike (f a) (g b)) :
    ρ.Alike (a?.bind f) (b?.bind g) := by
  cases h with
  | none => exact .none
  | some hab => exact hfg _ _ hab

namespace Renaming.Holds

variable {ρ : Renaming} {h k : Heap} {r s : Ref} {v w : Value} {α : Type} [Renamed α]

/-! Objects and texts. -/

theorem object? (hh : ρ.Holds h k) (hv : ρ.Alike v w) : ρ.Alike (h.object? v) (k.object? w) := by
  cases hv with
  | ref hrs => exact hh.get? hrs
  | _ => exact .none

theorem text? (hh : ρ.Holds h k) (hv : ρ.Alike v w) : h.text? v = k.text? w := by
  rw [Heap.text?, Heap.text?, hh.leftPool, hh.rightPool, hv.textOf?]

theorem typeName (hh : ρ.Holds h k) (hv : ρ.Alike v w) : h.typeName v = k.typeName w := by
  cases hv with
  | ref hrs =>
    rcases hh.get?_cases hrs with ⟨i, j, rfl, rfl⟩ | ⟨i, j, o, o', rfl, rfl, ho, ho', hoo⟩
    · rfl
    · simp only [Heap.typeName, ho, ho']
      cases hoo <;> rfl
  | _ => rfl

theorem isFalsy (hh : ρ.Holds h k) (hv : ρ.Alike v w) : h.isFalsy v = k.isFalsy w := by
  have htext := hh.text? hv
  cases hv with
  | ref hrs =>
    rcases hh.get?_cases hrs with ⟨i, j, rfl, rfl⟩ | ⟨i, j, o, o', rfl, rfl, ho, ho', hoo⟩
    · simp only [Heap.isFalsy, htext]
    · simp only [Heap.isFalsy, ho, ho']
      cases hoo with
      | array h => exact alike_isEmpty h
      | dict hkeys _ => exact alike_isEmpty hkeys
      | _ => rfl
  | _ => rfl

theorem class? (hh : ρ.Holds h k) (hrs : ρ.pairs r s) : ρ.Alike (h.class? r) (k.class? s) := by
  rcases hh.get?_cases hrs with ⟨i, j, rfl, rfl⟩ | ⟨i, j, o, o', rfl, rfl, ho, ho', hoo⟩
  · exact .none
  · simp only [Heap.class?, ho, ho']
    cases hoo with
    | cls h => exact .some h
    | _ => exact .none

theorem isClass (hh : ρ.Holds h k) (hrs : ρ.pairs r s) : h.isClass r = k.isClass s := by
  rcases hh.get?_cases hrs with ⟨i, j, rfl, rfl⟩ | ⟨i, j, o, o', rfl, rfl, ho, ho', hoo⟩
  · rfl
  · simp only [Heap.isClass, ho, ho']
    cases hoo <;> rfl

theorem className (hh : ρ.Holds h k) (hrs : ρ.pairs r s) : h.className r = k.className s := by
  have hcls := hh.class? hrs
  unfold Heap.className
  generalize h.class? r = c? at hcls
  generalize k.class? s = d? at hcls
  cases hcls with
  | none => rfl
  | some hcd => exact hcd.name

theorem primitive? (hh : ρ.Holds h k) (hv : ρ.Alike v w) : h.primitive? v = k.primitive? w := by
  cases hv with
  | ref hrs =>
    rcases hh.get?_cases hrs with ⟨i, j, rfl, rfl⟩ | ⟨i, j, o, o', rfl, rfl, ho, ho', hoo⟩
    · rfl
    · simp only [Heap.primitive?, ho, ho']
      cases hoo <;> rfl
  | _ => rfl

theorem isPrivate (hh : ρ.Holds h k) (hv : ρ.Alike v w) : h.isPrivate v = k.isPrivate w := by
  rw [Heap.isPrivate, Heap.isPrivate, hh.text? hv]

theorem instanceClass? (hh : ρ.Holds h k) (hv : ρ.Alike v w) :
    ρ.Alike (h.instanceClass? v) (k.instanceClass? w) := by
  have hobject := hh.object? hv
  unfold Heap.instanceClass?
  generalize h.object? v = o? at hobject
  generalize k.object? w = o'? at hobject
  cases hobject with
  | none => exact .none
  | some hoo =>
    cases hoo with
    | inst hcls _ => exact .some hcls
    | _ => exact .none

/-! Class chains. -/

theorem climb (hh : ρ.Holds h k) {pick pick' : Ref → Class → Option α}
    (hpick : ∀ r s c d, ρ.Alike c d → ρ.Alike (pick r c) (pick' s d)) (fuel : Nat)
    (hrs : ρ.pairs r s) : ρ.Alike (h.climb pick fuel r) (k.climb pick' fuel s) := by
  induction fuel generalizing r s with
  | zero => exact .endless
  | succ fuel ih =>
    have hcls := hh.class? hrs
    unfold Heap.climb
    generalize h.class? r = c? at hcls
    generalize k.class? s = d? at hcls
    cases hcls with
    | none => exact .absent
    | @some c d hcd =>
      have hfound := hpick r s c d hcd
      have hsuper := hcd.superclass
      dsimp only
      generalize pick r c = a? at hfound
      generalize pick' s d = b? at hfound
      cases hfound with
      | some hab => exact .found hab
      | none =>
        generalize c.superclass = r'? at hsuper
        generalize d.superclass = s'? at hsuper
        cases hsuper with
        | none => exact .absent
        | some hrs' => exact ih hrs'

theorem findMethod (hh : ρ.Holds h k) (hrs : ρ.pairs r s) (hv : ρ.Alike v w) :
    ρ.Alike (h.findMethod r v) (k.findMethod s w) := by
  unfold Heap.findMethod
  rw [Heap.climb_eq_of_le _ (Nat.le_max_left h.chainLimit k.chainLimit),
    Heap.climb_eq_of_le _ (Nat.le_max_right h.chainLimit k.chainLimit)]
  exact hh.climb (fun _ _ _ _ hcd => hcd.methods.entry? hh.leftPool hh.rightPool hv) _ hrs

theorem reaches (hh : ρ.Holds h k) {target target' : Ref} (htarget : ρ.pairs target target')
    (fuel : Nat) (hrs : ρ.pairs r s) :
    ρ.Alike (h.reaches target fuel r) (k.reaches target' fuel s) := by
  induction fuel generalizing r s with
  | zero => exact .endless
  | succ fuel ih =>
    have hsame : r = target ↔ s = target' := by
      constructor
      · rintro rfl
        exact ρ.functional hrs htarget
      · rintro rfl
        exact ρ.injective hrs htarget
    have hcls := hh.class? hrs
    unfold Heap.reaches
    by_cases heq : r = target
    · rw [if_pos heq, if_pos (hsame.1 heq)]
      exact .found rfl
    · rw [if_neg heq, if_neg (mt hsame.2 heq)]
      generalize h.class? r = c? at hcls
      generalize k.class? s = d? at hcls
      cases hcls with
      | none => exact .absent
      | @some c d hcd =>
        have hsuper := hcd.superclass
        simp only [Option.bind_some]
        generalize c.superclass = r'? at hsuper
        generalize d.superclass = s'? at hsuper
        cases hsuper with
        | none => exact .absent
        | some hrs' => exact ih hrs'

theorem isInstanceOf (hh : ρ.Holds h k) {target target' : Ref} (htarget : ρ.pairs target target')
    (hv : ρ.Alike v w) : ρ.Alike (h.isInstanceOf v target) (k.isInstanceOf w target') := by
  have hcls := hh.instanceClass? hv
  unfold Heap.isInstanceOf
  generalize h.instanceClass? v = r? at hcls
  generalize k.instanceClass? w = s? at hcls
  cases hcls with
  | none => exact .absent
  | some hrs =>
    dsimp only
    rw [Heap.reaches_eq_of_le _ (Nat.le_max_left h.chainLimit k.chainLimit),
      Heap.reaches_eq_of_le _ (Nat.le_max_right h.chainLimit k.chainLimit)]
    exact hh.reaches htarget _ hrs

theorem chain (hh : ρ.Holds h k) (fuel : Nat) (hrs : ρ.pairs r s) :
    ρ.Alike (h.chain fuel r) (k.chain fuel s) := by
  induction fuel generalizing r s with
  | zero => exact .none
  | succ fuel ih =>
    have hcls := hh.class? hrs
    unfold Heap.chain
    generalize h.class? r = c? at hcls
    generalize k.class? s = d? at hcls
    cases hcls with
    | none => exact .some .nil
    | @some c d hcd =>
      have hsuper := hcd.superclass
      dsimp only
      generalize c.superclass = r'? at hsuper
      generalize d.superclass = s'? at hsuper
      cases hsuper with
      | none => exact .some (.cons hcd .nil)
      | @some r' s' hrs' =>
        have hrest := ih hrs'
        dsimp only
        generalize h.chain fuel r' = cs? at hrest
        generalize k.chain fuel s' = ds? at hrest
        cases hrest with
        | none => exact .none
        | some hrest => exact .some (.cons hcd hrest)

theorem initialFields? (hh : ρ.Holds h k) (hrs : ρ.pairs r s) :
    ρ.Alike (h.initialFields? r) (k.initialFields? s) := by
  have hfold {cs ds : List Class} (hcds : ρ.Alike cs ds) {t u : Table} (htu : ρ.Alike t u) :
      ρ.Alike (cs.foldl (fun fields c => fields.addAll h.pool c.defaults) t)
        (ds.foldl (fun fields c => fields.addAll k.pool c.defaults) u) := by
    induction hcds generalizing t u with
    | nil => exact htu
    | cons hcd _ ih => exact ih (htu.addAll hh.leftPool hh.rightPool hcd.defaults)
  unfold Heap.initialFields?
  rw [Heap.chain_eq_of_le (Nat.le_max_left h.chainLimit k.chainLimit),
    Heap.chain_eq_of_le (Nat.le_max_right h.chainLimit k.chainLimit)]
  have hchain := hh.chain (max h.chainLimit k.chainLimit) hrs
  generalize h.chain _ r = cs? at hchain
  generalize k.chain _ s = ds? at hchain
  cases hchain with
  | none => exact .none
  | some hcds => exact .some (hfold (List.rel_reverse hcds) (Table.alike_empty ρ))

/-! What can be called. -/

theorem runs_left (hh : ρ.Holds h k) {c : Closure} (hc : h.get? r = some (.closure c)) :
    ρ.left.Runs r c.proto := by
  rw [hh.leftFixture]
  exact ⟨c, ⟨rfl, hc⟩, rfl⟩

theorem runs_right (hh : ρ.Holds h k) {c : Closure} (hc : k.get? s = some (.closure c)) :
    ρ.right.Runs s c.proto := by
  rw [hh.rightFixture]
  exact ⟨c, ⟨rfl, hc⟩, rfl⟩

theorem callee? (hh : ρ.Holds h k) (hv : ρ.Alike v w) : ρ.Alike (h.callee? v) (k.callee? w) := by
  cases hv with
  | ref hrs =>
    rcases hh.get?_cases hrs with ⟨i, j, rfl, rfl⟩ | ⟨i, j, o, o', rfl, rfl, ho, ho', hoo⟩
    · exact .none
    · simp only [Heap.callee?, ho, ho']
      cases hoo with
      | closure _ hproto _ =>
        exact .some (.closure hrs hproto (hh.runs_left ho) (hh.runs_right ho'))
      | native n => exact .some (.native n)
      | bound hreceiver hmethod => exact .some (.bound hreceiver hmethod)
      | cls h => exact .some (.cls hrs h)
      | _ => exact .none
  | _ => exact .none

theorem unbindWith (hh : ρ.Holds h k) (fuel : Nat) {receiver? receiver'? : Option Value}
    (hreceiver : ρ.Alike receiver? receiver'?) (hv : ρ.Alike v w) :
    ρ.Alike (h.unbind fuel receiver? v) (k.unbind fuel receiver'? w) := by
  induction fuel generalizing receiver? receiver'? v w with
  | zero =>
    have hcallee := hh.callee? hv
    unfold Heap.unbind
    generalize h.callee? v = c? at hcallee
    generalize k.callee? w = d? at hcallee
    cases hcallee with
    | none => exact .some ⟨hreceiver, hv⟩
    | some hcd =>
      cases hcd with
      | bound _ _ => exact .none
      | _ => exact .some ⟨hreceiver, hv⟩
  | succ fuel ih =>
    have hcallee := hh.callee? hv
    unfold Heap.unbind
    generalize h.callee? v = c? at hcallee
    generalize k.callee? w = d? at hcallee
    cases hcallee with
    | none => exact .some ⟨hreceiver, hv⟩
    | some hcd =>
      cases hcd with
      | bound hr hm => exact ih (.some hr) hm
      | _ => exact .some ⟨hreceiver, hv⟩

theorem unbind (hh : ρ.Holds h k) (hv : ρ.Alike v w) :
    ρ.Alike (h.unbind h.linkLimit none v) (k.unbind k.linkLimit none w) := by
  rw [Heap.unbind_eq_of_le (Nat.le_max_left h.linkLimit k.linkLimit),
    Heap.unbind_eq_of_le (Nat.le_max_right h.linkLimit k.linkLimit)]
  exact hh.unbindWith _ .none hv

/-! Texts of values. -/

/-- Two ways to show the elements of containers that agree on elements that are alike. -/
def Shows (ρ : Renaming) (element element' : Option (Value → String)) : Prop :=
  Option.Rel (fun f g => ∀ v w, ρ.Alike v w → f v = g w) element element'

theorem forall₂_map {f g : Value → String} (hfg : ∀ v w, ρ.Alike v w → f v = g w)
    {vs ws : List Value} (hvw : ρ.Alike vs ws) : vs.map f = ws.map g := by
  induction hvw with
  | nil => rfl
  | cons hvw _ ih => rw [List.map_cons, List.map_cons, hfg _ _ hvw, ih]

theorem renderArray {element element' : Option (Value → String)}
    (helement : Shows ρ element element') {xs ys : Array Value} (hxy : ρ.Alike xs ys) :
    Heap.renderArray xs element = Heap.renderArray ys element' := by
  cases helement with
  | none => rfl
  | some hfg => simp only [Heap.renderArray, forall₂_map hfg hxy]

theorem renderDict (hh : ρ.Holds h k) {element element' : Option (Value → String)}
    (helement : Shows ρ element element') {c d : Dict} (hkeys : ρ.Alike c.keys d.keys)
    (htable : ρ.Alike c.table d.table) : h.renderDict c element = k.renderDict d element' := by
  cases helement with
  | none => rfl
  | @some f g hfg =>
    have hpair (v w : Value) (hvw : ρ.Alike v w) :
        f v ++ ": " ++ f ((c.table.get? h.pool v).getD .nil) =
          g w ++ ": " ++ g ((d.table.get? k.pool w).getD .nil) := by
      have hget := htable.get? hh.leftPool hh.rightPool hvw
      rw [hfg v w hvw]
      congr 1
      generalize c.table.get? h.pool v = v'? at hget
      generalize d.table.get? k.pool w = w'? at hget
      cases hget with
      | none => exact hfg _ _ .nil
      | some hvw' => exact hfg _ _ hvw'
    simp only [Heap.renderDict, forall₂_map hpair hkeys]

/-- One step of a text, given the texts of the methods that are bound. -/
theorem renderWith_step (hh : ρ.Holds h k) {element element' : Option (Value → String)}
    (helement : Shows ρ element element') {links : Nat} (quoted : Bool) (hv : ρ.Alike v w)
    (hnext : ∀ next, links = next + 1 → ∀ v w, ρ.Alike v w →
      h.renderWith element next false v = k.renderWith element' next false w) :
    h.renderWith element links quoted v = k.renderWith element' links quoted w := by
  have htext := hh.text? hv
  unfold Heap.renderWith
  cases hv with
  | ref hrs =>
    rcases hh.get?_cases hrs with ⟨i, j, rfl, rfl⟩ | ⟨i, j, o, o', rfl, rfl, ho, ho', hoo⟩
    · simp only [Heap.renderText, htext]
    · simp only [ho, ho']
      cases hoo with
      | function h => cases h; rfl
      | closure _ hproto _ =>
        dsimp only
        generalize Closure.proto _ = p at hproto
        generalize Closure.proto _ = q at hproto
        cases hproto; rfl
      | bound _ hmethod =>
        cases links with
        | zero => rfl
        | succ next => exact hnext next rfl _ _ hmethod
      | cls h => simp only [h.name]
      | inst hcls _ => simp only [hh.className hcls]
      | array h => exact renderArray helement h
      | dict hkeys htable => exact hh.renderDict helement hkeys htable
      | _ => rfl
  | _ => rfl

theorem renderWith (hh : ρ.Holds h k) {element element' : Option (Value → String)}
    (helement : Shows ρ element element') (links : Nat) (quoted : Bool) (hv : ρ.Alike v w) :
    h.renderWith element links quoted v = k.renderWith element' links quoted w := by
  induction links generalizing quoted v w with
  | zero => exact hh.renderWith_step helement quoted hv nofun
  | succ links ih =>
    refine hh.renderWith_step helement quoted hv fun next hnext v w hvw => ?_
    obtain rfl := Nat.succ.inj hnext
    exact ih false hvw

theorem renderAt (hh : ρ.Holds h k) (room : Nat) (quoted : Bool) (hv : ρ.Alike v w) :
    h.renderAt room quoted v = k.renderAt room quoted w := by
  induction room generalizing quoted v w with
  | zero =>
    unfold Heap.renderAt
    rw [Heap.renderWith_eq_of_le _ (Nat.le_max_left h.linkLimit k.linkLimit),
      Heap.renderWith_eq_of_le _ (Nat.le_max_right h.linkLimit k.linkLimit)]
    exact hh.renderWith .none _ quoted hv
  | succ room ih =>
    unfold Heap.renderAt
    rw [Heap.renderWith_eq_of_le _ (Nat.le_max_left h.linkLimit k.linkLimit),
      Heap.renderWith_eq_of_le _ (Nat.le_max_right h.linkLimit k.linkLimit)]
    exact hh.renderWith (.some fun v w hvw => ih true hvw) _ quoted hv

theorem render (hh : ρ.Holds h k) (hv : ρ.Alike v w) : h.render v = k.render w :=
  hh.renderAt _ false hv

end Renaming.Holds

end ScriptMachine
