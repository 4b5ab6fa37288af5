import ScriptMachine.Listing
import ScriptMachine.Proofs.Code.Decoding

/-!
Streams of arbitrary bytes. An iteration over the instructions and a listing both go through a
stream by the widths of what they decode, the iteration as far as the first defect and the listing
to the end of the bytes. Neither relation below has a bound on its steps, and both are shown to be
what the bounded definitions compute.
-/

namespace ScriptMachine

variable {captured : Value → Option Nat} {h : Heap} {blob : Blob} {i : Instruction}
  {is : List Instruction} {offset : Nat}

theorem Layout.width_of_ne {layout : Layout} (hlayout : layout ≠ .closure) (m n : Nat) :
    layout.width m = layout.width n := by
  cases layout with
  | closure => exact absurd rfl hlayout
  | _ => rfl

/-- The variables that an operand captures. -/
def Operand.captures : Operand → List Capture
  | closure _ captures => captures
  | _ => []

namespace Instruction

/-! One instruction. -/

/-- An instruction takes up bytes of the stream, as many as its layout says for the variables that
it captures, and these are as many as its function needs. -/
structure Fits (captured : Value → Option Nat) (blob : Blob) (offset : Nat) (i : Instruction) :
    Prop where
  begins : i.offset = offset
  positive : 1 ≤ i.width
  ends : offset + i.width ≤ blob.size
  laidOut : i.width = i.op.layout.width i.operand.captures.length
  captures : ∀ function captures, i.operand = .closure function captures →
    (blob.constant? function).bind captured = some captures.length

theorem Holds.layout_eq {function : UInt16} {captures : List Capture} {layout : Layout} {count : Nat}
    (h : Holds captured blob offset layout (.closure function captures) count) :
    layout = .closure := by
  cases h with
  | closure => rfl

theorem fits_of_decode (h : decode captured blob offset = .ok i) : Fits captured blob offset i := by
  obtain ⟨hoffset, hdecoded⟩ := decoded_of_decode h
  refine ⟨hoffset, hdecoded.width_pos, hoffset ▸ hdecoded.fits, ?_, ?_⟩
  · by_cases hlayout : i.op.layout = .closure
    · obtain ⟨function, captures, v, count, hoperand, -, -, -, -, hwidth⟩ :=
        captures_of_decode h hlayout
      rw [hwidth, hlayout, hoperand]
      rfl
    · rw [hdecoded.width_eq hlayout]
      exact Layout.width_of_ne hlayout _ _
  · intro function captures hoperand
    obtain ⟨_, hholds, -⟩ := hdecoded.operand
    rw [hoperand] at hholds
    obtain ⟨function', captures', v, count, hoperand', -, hv, hcount, hread, -⟩ :=
      captures_of_decode h hholds.layout_eq
    obtain ⟨rfl, rfl⟩ := Operand.closure.inj (hoperand.symm.trans hoperand')
    rw [hv, Option.bind_some, hcount, length_readCaptures hread]

/-! The iteration. -/

/-- What an iteration gives at each of its steps, an instruction or a defect with its offset. -/
abbrev Item := Except (Nat × Defect) Instruction

/-- All that an iteration gives. -/
def Decoding.items (d : Decoding) : List Item :=
  d.instructions.toList.map .ok ++ d.defect?.toList.map .error

/-- The iteration from an offset on: it ends with the bytes or behind the first defect. -/
inductive Yields (captured : Value → Option Nat) (blob : Blob) : Nat → List Item → Prop where
  | done {offset : Nat} (hend : blob.size ≤ offset) : Yields captured blob offset []
  | failed {offset : Nat} {defect : Defect} (hin : offset < blob.size)
      (hdecode : decode captured blob offset = .error defect) :
      Yields captured blob offset [.error (offset, defect)]
  | next {offset : Nat} {i : Instruction} {rest : List Item} (hin : offset < blob.size)
      (hdecode : decode captured blob offset = .ok i) (hrest : Yields captured blob i.next rest) :
      Yields captured blob offset (.ok i :: rest)

/-- An instruction has a byte, so no iteration needs more steps than there are bytes left. -/
theorem yields_decodeFrom {fuel : Nat} {done : Array Instruction}
    (hfuel : blob.size ≤ offset + fuel) :
    ∃ rest, (decodeFrom captured blob fuel offset done).items = done.toList.map .ok ++ rest ∧
      Yields captured blob offset rest := by
  induction fuel generalizing offset done with
  | zero => exact ⟨[], rfl, .done hfuel⟩
  | succ fuel ih =>
    unfold decodeFrom
    by_cases hend : blob.size ≤ offset
    · rw [if_pos hend]
      exact ⟨[], rfl, .done hend⟩
    · rw [if_neg hend]
      have hin : offset < blob.size := Nat.lt_of_not_le hend
      cases hdecode : decode captured blob offset with
      | error defect => exact ⟨[.error (offset, defect)], rfl, .failed hin hdecode⟩
      | ok i =>
        have hfits := fits_of_decode hdecode
        have hfuel' : blob.size ≤ i.next + fuel := by
          have hpositive := hfits.positive
          rw [next, hfits.begins]
          omega
        obtain ⟨rest, hitems, hyields⟩ := @ih _ (done.push i) hfuel'
        refine ⟨.ok i :: rest, ?_, .next hin hdecode hyields⟩
        dsimp only
        rw [hitems, Array.toList_push, List.map_append, List.append_assoc]
        rfl

theorem yields_decodeAll : Yields captured blob 0 (decodeAll captured blob).items := by
  have hall : blob.size ≤ 0 + blob.size := Nat.le_add_left _ 0
  obtain ⟨rest, hitems, hyields⟩ :
      ∃ rest, (decodeFrom captured blob blob.size 0 #[]).items = [] ++ rest ∧
        Yields captured blob 0 rest := yields_decodeFrom hall
  rw [decodeAll, hitems]
  exact hyields

/-- A step of an iteration: what stands before it are instructions, it is what decoding finds behind
their widths, and nothing comes after a defect. -/
structure Step (captured : Value → Option Nat) (blob : Blob) (start : Nat)
    (before : List Instruction) (item : Item) (after : List Item) : Prop where
  inside : start + (before.map width).sum < blob.size
  found : item = (decode captured blob (start + (before.map width).sum)).mapError
    (start + (before.map width).sum, ·)
  final : ∀ defect, item = .error defect → after = []

namespace Yields

theorem unique {items items' : List Item} (hitems : Yields captured blob offset items)
    (hitems' : Yields captured blob offset items') : items = items' := by
  induction hitems generalizing items' with
  | done hend =>
    cases hitems' with
    | done => rfl
    | failed hin | next hin => exact absurd hin (Nat.not_lt.2 hend)
  | failed hin hdecode =>
    cases hitems' with
    | done hend => exact absurd hin (Nat.not_lt.2 hend)
    | failed _ hdecode' => rw [Except.error.inj (hdecode.symm.trans hdecode')]
    | next _ hdecode' => cases hdecode.symm.trans hdecode'
  | next hin hdecode _ ih =>
    cases hitems' with
    | done hend => exact absurd hin (Nat.not_lt.2 hend)
    | failed _ hdecode' => cases hdecode.symm.trans hdecode'
    | next _ hdecode' hrest' =>
      obtain rfl := Except.ok.inj (hdecode.symm.trans hdecode')
      rw [ih hrest']

/-- Each item of an iteration is one of its steps. -/
theorem step {before after : List Item} {item : Item}
    (hitems : Yields captured blob offset (before ++ item :: after)) :
    ∃ is, before = is.map .ok ∧ Step captured blob offset is item after := by
  induction before generalizing offset with
  | nil =>
    refine ⟨[], rfl, ?_⟩
    cases hitems with
    | failed hin hdecode =>
      refine ⟨hin, ?_, fun _ _ => rfl⟩
      rw [List.map_nil, List.sum_nil, Nat.add_zero, hdecode]
      rfl
    | next hin hdecode =>
      refine ⟨hin, ?_, fun _ hitem => by cases hitem⟩
      rw [List.map_nil, List.sum_nil, Nat.add_zero, hdecode]
      rfl
  | cons first before ih =>
    rw [List.cons_append] at hitems
    generalize hrest : before ++ item :: after = rest at hitems
    cases hitems with
    | failed =>
      cases before with
      | nil => cases hrest
      | cons => cases hrest
    | @next _ i _ hin hdecode hyields =>
      subst hrest
      obtain ⟨is, rfl, hstep⟩ := ih hyields
      have hnext : i.next = offset + i.width := by
        rw [Instruction.next, (fits_of_decode hdecode).begins]
      refine ⟨i :: is, rfl, ?_⟩
      have hsum : offset + ((i :: is).map width).sum = i.next + (is.map width).sum := by
        rw [List.map_cons, List.sum_cons, hnext, Nat.add_assoc]
      exact ⟨hsum ▸ hstep.inside, hsum ▸ hstep.found, hstep.final⟩

end Yields

/-- An iteration without a defect goes through all of a stream. -/
theorem streams_of_defect?_eq_none (hnone : (decodeAll captured blob).defect? = none) :
    Streams captured blob 0 (decodeAll captured blob).instructions.toList := by
  apply decodeAll_eq_iff.1
  rw [Array.toArray_toList, ← hnone]

end Instruction

/-! The listing. -/

namespace Listing

open Instruction

/-- The offsets of the lines of a listing from an offset on, and where the listing stops. -/
inductive Walks (h : Heap) (blob : Blob) : Nat → List Nat → Nat → Prop where
  | stop {offset : Nat} (hend : blob.size ≤ offset) : Walks h blob offset [] offset
  | next {offset : Nat} {offsets : List Nat} {last : Nat} (hin : offset < blob.size)
      (hrest : Walks h blob (line h blob offset).2 offsets last) :
      Walks h blob offset (offset :: offsets) last

/-- A line goes forward and not beyond the bytes, whatever stands at its offset. -/
theorem line_advances (hin : offset < blob.size) :
    offset < (line h blob offset).2 ∧ (line h blob offset).2 ≤ blob.size := by
  unfold line
  cases hdecode : decode h.captured? blob offset with
  | ok i =>
    obtain ⟨hbegins, hpositive, hends, -, -⟩ := fits_of_decode hdecode
    show offset < i.next ∧ i.next ≤ blob.size
    rw [next, hbegins]
    omega
  | error defect =>
    cases defect with
    | unknownOpcode byte => exact ⟨Nat.lt_succ_self offset, hin⟩
    | _ => exact ⟨hin, Nat.le_refl _⟩

theorem exists_walks (hoffset : offset ≤ blob.size) :
    ∃ offsets, Walks h blob offset offsets blob.size := by
  induction hleft : blob.size - offset using Nat.strongRecOn generalizing offset with
  | _ left ih =>
    rcases Nat.eq_or_lt_of_le hoffset with heq | hin
    · rw [heq]
      exact ⟨[], .stop (Nat.le_refl _)⟩
    · obtain ⟨hforward, hinside⟩ := line_advances (h := h) hin
      obtain ⟨offsets, hwalks⟩ := ih _ (by omega) hinside rfl
      exact ⟨offset :: offsets, .next hin hwalks⟩

/-- An unknown operation, then a jump without its second byte. -/
example : Walks {} { code := #[⟨255, 1⟩, ⟨Opcode.jump.toByte, 1⟩, ⟨0, 1⟩] } 0 [0, 1] 3 :=
  .next (by decide) (.next (by decide) (.stop (by decide)))

namespace Walks

variable {offsets offsets' : List Nat} {last last' : Nat}

theorem unique (hwalks : Walks h blob offset offsets last)
    (hwalks' : Walks h blob offset offsets' last') : offsets' = offsets ∧ last' = last := by
  induction hwalks generalizing offsets' with
  | stop hend =>
    cases hwalks' with
    | stop => exact ⟨rfl, rfl⟩
    | next hin => exact absurd hin (Nat.not_lt.2 hend)
  | next hin _ ih =>
    cases hwalks' with
    | stop hend => exact absurd hin (Nat.not_lt.2 hend)
    | next _ hrest' =>
      obtain ⟨rfl, rfl⟩ := ih hrest'
      exact ⟨rfl, rfl⟩

theorem mem_bounds (hwalks : Walks h blob offset offsets last) {o : Nat} (ho : o ∈ offsets) :
    offset ≤ o ∧ o < blob.size := by
  induction hwalks with
  | stop => cases ho
  | next hin _ ih =>
    rcases List.mem_cons.1 ho with rfl | hmem
    · exact ⟨Nat.le_refl _, hin⟩
    · have hforward := (line_advances (h := h) hin).1
      have hbounds := ih hmem
      omega

theorem increasing (hwalks : Walks h blob offset offsets last) : offsets.Pairwise (· < ·) := by
  induction hwalks with
  | stop => exact .nil
  | next hin hrest ih =>
    refine .cons (fun o ho => ?_) ih
    exact Nat.lt_of_lt_of_le (line_advances (h := h) hin).1 (hrest.mem_bounds ho).1

/-- The last line leads to where the listing stops. -/
theorem advance_getLast? (hwalks : Walks h blob offset offsets last) {o : Nat}
    (ho : offsets.getLast? = some o) : (line h blob o).2 = last := by
  induction hwalks with
  | stop => cases ho
  | next _ hrest ih =>
    cases hrest with
    | stop =>
      obtain rfl := Option.some.inj ho
      rfl
    | next hin' hrest' => exact ih (by rwa [List.getLast?_cons_cons] at ho)

theorem linesFrom_eq (hwalks : Walks h blob offset offsets last) {fuel : Nat} {done : String}
    (hfuel : blob.size ≤ offset + fuel) :
    linesFrom h blob fuel offset done =
      offsets.foldl (fun text o => text ++ (line h blob o).1 ++ "\n") done := by
  induction hwalks generalizing fuel done with
  | stop hend =>
    cases fuel with
    | zero => rfl
    | succ fuel =>
      unfold linesFrom
      rw [if_pos hend]
      rfl
  | next hin _ ih =>
    cases fuel with
    | zero => omega
    | succ fuel =>
      have hforward := (line_advances (h := h) hin).1
      unfold linesFrom
      rw [if_neg (Nat.not_le.2 hin), List.foldl_cons]
      exact ih (by omega)

end Walks

theorem line_of_decode (hdecode : decode h.captured? blob offset = .ok i) :
    (line h blob offset).2 = i.next := by
  unfold line
  rw [hdecode]

theorem walks_of_streams (hstreams : Streams h.captured? blob offset is) :
    Walks h blob offset (is.map Instruction.offset) blob.size := by
  induction hstreams with
  | done hend => exact hend ▸ .stop (Nat.le_of_eq hend.symm)
  | @next i rest hdecode _ ih =>
    obtain ⟨-, hpositive, hends, -, -⟩ := fits_of_decode hdecode
    refine .next (by omega) ?_
    rwa [line_of_decode hdecode]

/-- Decoding and listing go through any bytes. Each instruction fits into the stream; an iteration
goes through instructions without a gap and has at most one defect, at its end; a listing goes
forward with each line and stops at the end of the bytes, and its lines are the instructions if
there is no defect. -/
theorem covers_any_stream (h : Heap) (blob : Blob) (name : String) :
    (∀ offset i, decode h.captured? blob offset = .ok i → Fits h.captured? blob offset i) ∧
    Yields h.captured? blob 0 (decodeAll h.captured? blob).items ∧
    (∀ before item after, (decodeAll h.captured? blob).items = before ++ item :: after →
      ∃ is, before = is.map .ok ∧ Step h.captured? blob 0 is item after) ∧
    ∃ offsets,
      (∀ offsets' last, Walks h blob 0 offsets' last ↔ offsets' = offsets ∧ last = blob.size) ∧
      render h blob name =
        offsets.foldl (fun text o => text ++ (line h blob o).1 ++ "\n") s!"== {name} ==\n" ∧
      offsets.Pairwise (· < ·) ∧
      (∀ o ∈ offsets, o < blob.size) ∧
      (∀ o, offsets.getLast? = some o → (line h blob o).2 = blob.size) ∧
      ((decodeAll h.captured? blob).defect? = none →
        offsets = (decodeAll h.captured? blob).instructions.toList.map Instruction.offset ∧
        ((decodeAll h.captured? blob).instructions.toList.map width).sum = blob.size) := by
  have hyields : Yields h.captured? blob 0 (decodeAll h.captured? blob).items := yields_decodeAll
  obtain ⟨offsets, hwalks⟩ := exists_walks (h := h) (Nat.zero_le blob.size)
  refine ⟨fun _ _ => fits_of_decode, hyields, fun before item after hitems => ?_, offsets,
    fun offsets' last => ⟨hwalks.unique, ?_⟩, hwalks.linesFrom_eq (Nat.le_add_left _ 0),
    hwalks.increasing, fun _ ho => (hwalks.mem_bounds ho).2, fun _ => hwalks.advance_getLast?,
    fun hnone => ?_⟩
  · rw [hitems] at hyields
    exact hyields.step
  · rintro ⟨rfl, rfl⟩
    exact hwalks
  · have hstreams := streams_of_defect?_eq_none hnone
    obtain ⟨heq, -⟩ := hwalks.unique (walks_of_streams hstreams)
    exact ⟨heq.symm, (Nat.zero_add _).symm.trans hstreams.sum_width⟩

end Listing

end ScriptMachine
