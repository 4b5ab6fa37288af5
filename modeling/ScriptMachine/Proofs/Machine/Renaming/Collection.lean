import ScriptMachine.Proofs.Machine.Renaming.Machines

/-!
Collections of machines that are the same but for a renaming. A collection keeps what can be reached
from the roots, where it is, so what is left of the pairs is a renaming of what is left. Either
machine may collect, or both, or none.
-/

namespace ScriptMachine

theorem Object.mem_refs_of_table {o : Object} {t : Table} (ht : t ∈ o.tables) {r : Ref}
    (hr : r ∈ t.refs) : r ∈ o.refs := by
  cases o with
  | cls c =>
    simp only [tables, List.mem_cons, List.not_mem_nil, or_false] at ht
    simp only [refs, List.mem_append]
    rcases ht with rfl | rfl | rfl | rfl
    · exact Or.inl (Or.inl (Or.inl (Or.inl (Or.inr hr))))
    · exact Or.inl (Or.inl (Or.inl (Or.inr hr)))
    · exact Or.inl (Or.inl (Or.inr hr))
    · exact Or.inl (Or.inr hr)
  | inst i =>
    obtain rfl := List.mem_singleton.1 ht
    exact List.mem_cons_of_mem _ hr
  | dict d =>
    obtain rfl := List.mem_singleton.1 ht
    exact List.mem_append_right _ hr
  | switch s =>
    obtain rfl := List.mem_singleton.1 ht
    exact hr
  | _ => cases ht

namespace Heap

variable {h k : Heap} {roots : List Ref} {released : Released}

theorem closedUnder_reachable (h : Heap) (roots : List Ref) :
    h.ClosedUnder (Reachable h roots) := fun _ _ hr ho _ hs => .step hr ho hs

theorem Composed.keeps_self (hh : h.Composed) : h.Keeps (fun _ => True) h where
  composed := hh
  objects _ _ := rfl
  texts _ _ := id
  held _ _ _ := id

/-- A collection keeps what can be reached. -/
theorem Composed.keeps_collected (hh : h.Composed)
    (hcollected : Collected h (Reachable h roots) released k) (hwf : k.WellFormed) :
    h.Keeps (Reachable h roots) k where
  composed := by
    refine ⟨hwf, hcollected.rest, ?_, ?_⟩
    · intro r o ho t ht
      obtain ⟨hold, hr⟩ := hcollected.get?_iff.1 ho
      have horder := hh.inOrder r o hold t ht
      have hheld (e : Entry) (he : e ∈ t.entries) : k.pool.Holds e.key := by
        intro i hi
        obtain ⟨x, hx⟩ := horder.held e he i hi
        have hmem : Ref.text i ∈ t.refs := by
          refine List.mem_flatMap.2 ⟨e, he, List.mem_append_left _ ?_⟩
          rw [hi]
          exact List.mem_singleton_self _
        exact ⟨x, (hcollected.texts i x).2 ⟨hx, .step hr hold (Object.mem_refs_of_table ht hmem)⟩⟩
      refine horder.overPool hheld fun e he => ?_
      refine Pool.textOf?_of_holds (horder.held e he) (hheld e he) fun {i x y} hx hy => ?_
      exact Option.some.inj (hx.symm.trans ((hcollected.texts i y).1 hy).1)
    · intro r c hc
      obtain ⟨hold, hr⟩ := hcollected.get?_iff.1 hc
      exact hcollected.get?_iff.2 ⟨hh.closures r c hold, .step hr hold List.mem_cons_self⟩
  objects i hi := Option.ext fun o => by
    rw [hcollected.get?_iff]
    exact and_iff_left hi
  texts i t ht := ((hcollected.texts i t).1 ht).1
  held i t hi ht := (hcollected.texts i t).2 ⟨ht, hi⟩

end Heap

open Machine

namespace Renaming

variable {ρ σ : Renaming} {m n : Machine} {h k : Heap} {K L : Ref → Prop}

/-- What is kept of both machines stays alike. -/
theorem Reflects.narrow (hσ : Narrows K L ρ σ) (hm : ρ.Reflects m n) (hK : ∀ r ∈ m.roots, K r)
    (hL : ∀ s ∈ n.roots, L s)
    (hK' : ∀ r p, ρ.left.Runs r p → K r → ∀ v ∈ p.blob.constants, ∀ s ∈ v.refs, K s)
    (hL' : ∀ r p, ρ.right.Runs r p → L r → ∀ v ∈ p.blob.constants, ∀ s ∈ v.refs, L s) :
    σ.Reflects m n := by
  simp only [mem_roots_iff, or_imp, forall_and] at hK hL
  obtain ⟨hstack, hframes, hcells, hglobals, hfilters, hcompletions, hraised, hexceptions,
    hprimitives, hpinned, hmessage, hstacktrace⟩ := hK
  obtain ⟨lstack, lframes, lcells, lglobals, lfilters, lcompletions, lraised, lexceptions,
    lprimitives, lpinned, lmessage, lstacktrace⟩ := hL
  constructor
  case settings => exact hm.settings
  case stack =>
    refine forall₂_narrow hσ hm.stack (fun v hv r hr => hstack r ⟨v, ?_, hr⟩)
      fun w hw s hs => lstack s ⟨w, ?_, hs⟩
    · exact Array.mem_toList_iff.1 hv
    · exact Array.mem_toList_iff.1 hw
  case frames =>
    refine forall₂_imp_of_mem hm.frames fun f hf g hg hfg => ?_
    have hclosure := hframes _ ⟨f, hf, rfl⟩
    have hclosure' := lframes _ ⟨g, hg, rfl⟩
    exact hfg.narrow hσ hclosure hclosure' (hK' _ _ hfg.left hclosure) (hL' _ _ hfg.right hclosure')
  case globals => exact hm.globals.narrow hσ hglobals lglobals
  case openUpvalues => exact forall₂_pairs_narrow hσ hm.openUpvalues hcells lcells
  case regions =>
    refine forall₂_imp_of_mem hm.regions fun g hg g' hg' hgg => ?_
    refine { hgg with filter := rel_imp_of_mem hgg.filter fun r s hr hs hrs => ?_ }
    exact hσ.pairs (hfilters r ⟨g, hg, hr⟩) (lfilters s ⟨g', hg', hs⟩) hrs
  case completions =>
    refine forall₂_imp_of_mem hm.completions fun p hp q hq hpq => ?_
    refine ⟨hpq.tryDepth, hpq.frameDepth, hpq.completion.narrow hσ ?_ ?_⟩
    · exact fun v hv r hr => hcompletions r ⟨p, hp, v, hv, hr⟩
    · exact fun v hv s hs => lcompletions s ⟨q, hq, v, hv, hs⟩
  case raised =>
    exact rel_narrow hσ hm.raised (fun v hv r hr => hraised r ⟨v, hv, hr⟩)
      fun w hw s hs => lraised s ⟨w, hw, hs⟩
  case message => exact hσ.pairs (hmessage _ rfl) (lmessage _ rfl) hm.message
  case stacktrace => exact hσ.pairs (hstacktrace _ rfl) (lstacktrace _ rfl) hm.stacktrace
  case primitives =>
    exact fun p => hσ.pairs (hprimitives _ ⟨p, rfl⟩) (lprimitives _ ⟨p, rfl⟩) (hm.primitives p)
  case exceptions =>
    exact fun c => hσ.pairs (hexceptions _ ⟨c, rfl⟩) (lexceptions _ ⟨c, rfl⟩) (hm.exceptions c)
  case pinned =>
    refine forall₂_narrow hσ hm.pinned (fun v hv r hr => hpinned r ⟨v, ?_, hr⟩)
      fun w hw s hs => lpinned s ⟨w, ?_, hs⟩
    · exact Array.mem_toList_iff.1 hv
    · exact Array.mem_toList_iff.1 hw
  case output => exact hm.output
  case errors => exact hm.errors

/-- Another heap keeps what the machine needs: a set of references with the roots, and with all that
its objects refer to. -/
structure Suffices (K : Ref → Prop) (m : Machine) (h : Heap) : Prop where
  keeps : m.heap.Keeps K h
  closed : m.heap.ClosedUnder K
  roots : ∀ r ∈ m.roots, K r

theorem suffices_self (hm : m.heap.Composed) : Suffices (fun _ => True) m m.heap where
  keeps := hm.keeps_self
  closed _ _ _ _ _ _ := trivial
  roots _ _ := trivial

theorem suffices_collect (hm : m.heap.Composed) :
    Suffices (Heap.Reachable m.heap m.roots) m m.collect.2.heap where
  keeps := hm.keeps_collected (hm.rest.collected m.roots) (hm.wellFormed.collect m.roots)
  closed := Heap.closedUnder_reachable m.heap m.roots
  roots _ := .root

/-- A closure that is kept is kept with the constants of its function. -/
theorem Suffices.constants (hm : m.heap.Composed) (hkeeps : Suffices K m h) {r : Ref}
    {p : Prototype} (hruns : hm.fixture.Runs r p) (hr : K r) :
    ∀ v ∈ p.blob.constants, ∀ s ∈ v.refs, K s := by
  obtain ⟨c, ⟨-, hc⟩, hproto⟩ := hruns
  rw [← hproto]
  exact hkeeps.closed.constants hm hr hc

/-- Machines stay the same but for a renaming if the heaps keep what they need. -/
theorem Mirrors.thin (hm : ρ.Mirrors m n) (hleft : Suffices K m h) (hright : Suffices L n k) :
    ∃ σ : Renaming, σ.Mirrors { m with heap := h } { n with heap := k } := by
  have hσ := narrows_restrict hm.heap hleft.keeps hright.keeps
  refine ⟨_, holds_restrict hm.heap hleft.keeps hright.keeps hleft.closed hright.closed, ?_⟩
  refine (hm.state.narrow hσ hleft.roots hright.roots ?_ ?_).withHeaps h k
  · rw [hm.heap.leftFixture]
    exact fun r p => hleft.constants hm.heap.left
  · rw [hm.heap.rightFixture]
    exact fun r p => hright.constants hm.heap.right

end Renaming

end ScriptMachine
