import ScriptMachine.Proofs.Code.Assembling

/-!
Operands of long blobs. Constant indices, distances and addresses are kept in 16 bits however long
a blob becomes, and nothing is refused. So an operand is what was meant modulo 65536: it is right
exactly as long as the number itself fits, and beyond that it is that of another place.
-/

namespace ScriptMachine

namespace Assembly

variable {a : Assembly} {b b' : Blob} {e : Edit} {edits allowed before after : List Edit}
  {captured : Value → Option Nat} {o : Opcode} {v : Value}

/-- A direct use of a blob that appends to it. -/
inductive Append where
  | op (o : Opcode) (line : Nat)
  | byte (n : UInt8) (line : Nat)
  | short (n : UInt16) (line : Nat)
  | constant (v : Value)

def Append.perform (b : Blob) : Append → Blob
  | op o line => b.pushOp o line
  | byte n line => b.pushByte n line
  | short n line => b.pushShort n line
  | constant v => (b.addConstant v).2

/-- A blob after direct uses of it. -/
def appendAll (b : Blob) (appends : List Append) : Blob := appends.foldl Append.perform b

/-- What is left of a number in 16 bits. It is the number itself exactly if that fits. -/
structure Narrowed (n kept : Nat) : Prop where
  modulo : kept = n % 65536
  same_iff : kept = n ↔ n < 65536

theorem narrowed_ofNat (n : Nat) : Narrowed n (UInt16.ofNat n).toNat := by
  have hmodulo : (UInt16.ofNat n).toNat = n % 65536 := UInt16.toNat_ofNat'
  exact ⟨hmodulo, by omega⟩

/-! Blobs that grow. -/

theorem Grown.addConstant {touched : Nat → Prop} (b : Blob) (v : Value) :
    Grown touched b (b.addConstant v).2 :=
  Grown.constant ⟨b, 0⟩ v

theorem grown_appendAll (b : Blob) (appends : List Append) :
    Grown (fun _ => False) b (appendAll b appends) := by
  induction appends generalizing b with
  | nil => exact .refl b
  | cons call rest ih =>
    refine Grown.trans ?_ (ih (call.perform b))
    cases call with
    | op o line => exact .pushByte b _ line
    | byte n line => exact .pushByte b n line
    | short n line => exact (Grown.pushByte b _ line).trans (.pushByte _ _ line)
    | constant v => exact .addConstant b v

/-- A constant stands in a blob at its place, and an index is what is left of the place. -/
structure Indexed (b : Blob) (place : Nat) (index : UInt16) (v : Value) : Prop where
  stands : b.constants[place]? = some v
  narrowed : Narrowed place index.toNat

theorem Indexed.constant? {place : Nat} {index : UInt16} (h : Indexed b place index v)
    (hplace : place < 65536) : b.constant? index = some v := by
  unfold Blob.constant?
  rw [h.narrowed.same_iff.2 hplace]
  exact h.stands

theorem indexed_addConstant {touched : Nat → Prop} (hgrown : Grown touched (b.addConstant v).2 b') :
    Indexed b' b.constants.size (b.addConstant v).1 v := by
  refine ⟨?_, narrowed_ofNat _⟩
  have hsize : b.constants.size < (b.addConstant v).2.constants.size := by
    show _ < (b.constants.push v).size
    rw [Array.size_push]
    omega
  rw [hgrown.constants _ hsize]
  exact Array.getElem?_push_size

/-- An edit that adds a constant adds it to the blob. -/
theorem grown_addConstant (hadded : e.added? = some v) :
    Grown (fun _ => True) (a.blob.addConstant v).2 (e.perform a).blob := by
  cases e with
  | constant =>
    obtain rfl := Option.some.inj hadded
    exact .refl _
  | opConst | push =>
    obtain rfl := Option.some.inj hadded
    exact .opShort (a.constant _).2 _ _
  | _ => cases hadded

/-- In the middle of a labelled sequence only labels of earlier edits are open. -/
theorem Labelled.split (h : Labelled allowed a (before ++ e :: after)) (hplaced : Placed allowed a) :
    ∃ allowed', Labelled allowed' (assemble a before) (e :: after) ∧
      Placed allowed' (assemble a before) := by
  induction before generalizing a allowed with
  | nil => exact ⟨allowed, h, hplaced⟩
  | cons e' before ih => exact ih h.2 (hplaced.perform e')

theorem assemble_split (a : Assembly) (before after : List Edit) (e : Edit) :
    assemble a (before ++ e :: after) = assemble (e.perform (assemble a before)) after :=
  List.foldl_append

/-! The instructions with addresses. -/

section

variable (hlabelled : Labelled allowed a (e :: after)) (hplaced : Placed allowed a)
  (hgrown : Grown (fun _ => False) (assemble (e.perform a) after).blob b)

include hlabelled hplaced hgrown

theorem jump_narrowed (he : e = .jump o) (hlayout : o.layout = .jumpForward) {t : Nat}
    (ht : lastOffset (.patchJump (a.jump o).1) (e.perform a) after = some t) :
    ∃ n, Narrowed (t - (a.offset + 3)) n ∧ Instruction.decode captured b a.offset =
      .ok ⟨a.offset, o, .jump (UInt16.ofNat n) (a.offset + 3 + n : Nat), 3⟩ := by
  subst he
  refine ⟨_, narrowed_ofNat _, ?_⟩
  rw [UInt16.ofNat_toNat]
  refine decode_jump hlayout hplaced hlabelled.2 hgrown ?_
  rw [show (a.jump o).2 = Edit.perform a (.jump o) from rfl, ht]
  rfl

theorem loop_narrowed {start : Nat} (he : e = .loopTo start) :
    ∃ n, Narrowed (a.offset + 3 - start) n ∧ Instruction.decode captured b a.offset =
      .ok ⟨a.offset, .loop, .jump (UInt16.ofNat n) ((a.offset + 3 : Nat) - (n : Nat)), 3⟩ := by
  subst he
  refine ⟨_, narrowed_ofNat _, ?_⟩
  rw [UInt16.ofNat_toNat]
  have hrest := (Edit.grown_rest hplaced hlabelled.2).extend hgrown fun _ _ => False.elim
  refine decode_loopTo (hrest.mono ?_)
  rintro i - (hi | ⟨e', hmem, -⟩)
  · exact hi
  · cases hmem

theorem tryRegion_narrowed {type : UInt16} (he : e = .tryRegion type) :
    ∃ handler block : UInt16,
      (∀ t, lastOffset (.patchHandler (a.tryRegion type).1) (e.perform a) after = some t →
        Narrowed t handler.toNat) ∧
      (∀ t, lastOffset (.patchFinally (a.tryRegion type).1) (e.perform a) after = some t →
        Narrowed t block.toNat) ∧
      Instruction.decode captured b a.offset =
        .ok ⟨a.offset, .enterTry, .tryRegion type handler block, 7⟩ := by
  subst he
  refine ⟨_, _, fun t ht => ?_, fun t ht => ?_,
    decode_tryRegion hplaced hlabelled.2 hgrown rfl⟩
  all_goals
    dsimp only
    rw [ht]
    exact narrowed_ofNat t

end

/-- What a blob of any length holds after edits whose patches go to labels given before, and after
direct uses that append to it. A constant stands at its place and its index is the place modulo
65536; a forward jump and a loop go by the distance to the target modulo 65536; the addresses of a
try region are those patched in last modulo 65536. -/
theorem operands_narrowed (hlabelled : Labelled [] empty edits) (appends : List Append)
    (hb : b = appendAll (assemble empty edits).blob appends) :
    (∀ before e after v, edits = before ++ e :: after → e.added? = some v →
      ∀ a, a = assemble empty before →
        Indexed b a.blob.constants.size (a.constant v).1 v) ∧
    (∀ before v after, appends = before ++ .constant v :: after →
      ∀ c, c = appendAll (assemble empty edits).blob before →
        Indexed b c.constants.size (c.addConstant v).1 v) ∧
    (∀ before o after t, edits = before ++ .jump o :: after → o.layout = .jumpForward →
      ∀ a, a = assemble empty before →
        lastOffset (.patchJump (a.jump o).1) (a.jump o).2 after = some t →
        ∃ n, Narrowed (t - (a.offset + 3)) n ∧ Instruction.decode captured b a.offset =
          .ok ⟨a.offset, o, .jump (UInt16.ofNat n) (a.offset + 3 + n : Nat), 3⟩) ∧
    (∀ before start after, edits = before ++ .loopTo start :: after →
      ∀ a, a = assemble empty before → start ≤ a.offset + 3 →
        ∃ n, Narrowed (a.offset + 3 - start) n ∧ Instruction.decode captured b a.offset =
          .ok ⟨a.offset, .loop, .jump (UInt16.ofNat n) ((a.offset + 3 : Nat) - (n : Nat)), 3⟩) ∧
    (∀ before type after, edits = before ++ .tryRegion type :: after →
      ∀ a, a = assemble empty before →
        ∃ handler block : UInt16,
          (∀ t, lastOffset (.patchHandler (a.tryRegion type).1) (a.tryRegion type).2 after = some t →
            Narrowed t handler.toNat) ∧
          (∀ t, lastOffset (.patchFinally (a.tryRegion type).1) (a.tryRegion type).2 after = some t →
            Narrowed t block.toNat) ∧
          Instruction.decode captured b a.offset =
            .ok ⟨a.offset, .enterTry, .tryRegion type handler block, 7⟩) := by
  have hgrown {before after : List Edit} {e : Edit} (hedits : edits = before ++ e :: after) :
      Grown (fun _ => False) (assemble (e.perform (assemble empty before)) after).blob b := by
    rw [hb, ← assemble_split, ← hedits]
    exact grown_appendAll _ _
  have hplaced : Placed [] empty := fun _ hmem => nomatch hmem
  refine ⟨?_, ?_, ?_, ?_, ?_⟩
  · rintro before e after v hedits hadded a rfl
    have hlater := (grown_assemble_any _ after).trans ((hgrown hedits).mono fun _ _ => False.elim)
    exact indexed_addConstant ((grown_addConstant hadded).trans hlater)
  · rintro before v after happends c rfl
    refine @indexed_addConstant _ _ _ (fun _ => False) ?_
    rw [hb, happends]
    show Grown _ _ (List.foldl _ _ _)
    rw [List.foldl_append]
    exact grown_appendAll _ after
  · rintro before o after t hedits hlayout a rfl ht
    obtain ⟨allowed, hlabelled', hplaced'⟩ := (hedits ▸ hlabelled).split hplaced
    exact jump_narrowed hlabelled' hplaced' (hgrown hedits) rfl hlayout ht
  · rintro before start after hedits a rfl -
    obtain ⟨allowed, hlabelled', hplaced'⟩ := (hedits ▸ hlabelled).split hplaced
    exact loop_narrowed hlabelled' hplaced' (hgrown hedits) rfl
  · rintro before type after hedits a rfl
    obtain ⟨allowed, hlabelled', hplaced'⟩ := (hedits ▸ hlabelled).split hplaced
    exact tryRegion_narrowed hlabelled' hplaced' (hgrown hedits) rfl

/-! A jump over 65536 bytes. -/

theorem labelled_append (hplain : ∀ e ∈ before, e.slot? = none)
    (hafter : ∀ allowed', allowed ⊆ allowed' → Labelled allowed' (assemble a before) after) :
    Labelled allowed a (before ++ after) := by
  induction before generalizing a allowed with
  | nil => exact hafter allowed fun _ => id
  | cons e before ih =>
    rw [List.forall_mem_cons] at hplain
    refine ⟨fun slot hslot => ?_, ih hplain.2 fun allowed' hsub => ?_⟩
    · rw [hplain.1] at hslot
      cases hslot
    · exact hafter allowed' (List.Subset.trans (List.subset_append_right _ _) hsub)

theorem lastOffset_append (hne : e ∉ before) :
    lastOffset e a (before ++ after) = lastOffset e (assemble a before) after := by
  induction before generalizing a with
  | nil => rfl
  | cons e' before ih =>
    rw [List.mem_cons, not_or] at hne
    refine (congrArg (Option.or · _) (ih hne.2)).trans ?_
    rw [if_neg (Ne.symm hne.1), Option.or_none]
    rfl

theorem offset_regions (a : Assembly) (type : UInt16) (n : Nat) :
    (assemble a (List.replicate n (.tryRegion type))).offset = a.offset + 7 * n := by
  induction n generalizing a with
  | zero => rfl
  | succ n ih =>
    have hstep : (a.tryRegion type).2.offset = a.offset + 7 := by simp [tryRegion]
    refine (ih (a.tryRegion type).2).trans ?_
    omega

/-- Two instructions and the entries of some regions, of which the first returns one. -/
def regions (n : Nat) : List Edit := .op .pushOne :: .op .ret :: List.replicate n (.tryRegion 0)

theorem slot?_regions (n : Nat) : ∀ e ∈ regions n, e.slot? = none := by
  unfold regions
  simp only [List.mem_cons, List.mem_replicate]
  rintro e (rfl | rfl | ⟨-, rfl⟩) <;> rfl

/-- A jump over some regions. -/
def jumpOver (n : Nat) : List Edit := .jump .jump :: (regions n ++ [.patchJump ⟨1⟩])

theorem labelled_jumpOver (n : Nat) : Labelled [] empty (jumpOver n) := by
  refine ⟨nofun, labelled_append (slot?_regions n) fun allowed' hsub => ⟨?_, trivial⟩⟩
  exact fun _ _ => hsub List.mem_cons_self

theorem lastOffset_jumpOver (n : Nat) : lastOffset (.patchJump ⟨1⟩) (empty.jump .jump).2
    (regions n ++ [.patchJump ⟨1⟩]) = some (5 + 7 * n) := by
  rw [lastOffset_append fun hmem => by cases slot?_regions n _ hmem]
  show Option.or none (if _ then _ else _) = _
  rw [Option.none_or, if_pos rfl]
  exact congrArg some (offset_regions _ 0 n)

/-- A jump over 65536 bytes is patched to offset 65539 and goes to offset 3, right behind itself. -/
theorem operands_narrowed_jumpOver :
    lastOffset (.patchJump ⟨1⟩) (empty.jump .jump).2 (regions 9362 ++ [.patchJump ⟨1⟩]) =
        some 65539 ∧
      Instruction.decode (fun _ => none) (assemble empty (jumpOver 9362)).blob 0 =
        .ok ⟨0, .jump, .jump 0 3, 3⟩ := by
  have hlast := lastOffset_jumpOver 9362
  obtain ⟨-, -, hjump, -⟩ :=
    @operands_narrowed _ _ (fun _ => none) (labelled_jumpOver 9362) [] rfl
  obtain ⟨n, hn, hdecode⟩ := hjump [] .jump _ _ rfl rfl empty rfl hlast
  obtain rfl : n = 0 := hn.modulo
  exact ⟨hlast, hdecode⟩

end Assembly

end ScriptMachine
