import ScriptMachine.Proofs.ArraySlots
import ScriptMachine.Proofs.Heap.Growth
import ScriptMachine.Proofs.Machine.Activations
import ScriptMachine.Proofs.Machine.Idleness

/-!
Where the arguments of a call go. A function gets one slot for each of its parameters: the arguments
in order as far as they reach, and nil from there on. A variadic function gets one slot more, with a
new array of the arguments that no parameter takes.

A call that is refused, for its arguments or for want of room, leaves the stack as it stands. So the
calls under way never become more than the settings allow, the one call apart with which a run
begins.
-/

namespace ScriptMachine

namespace Prototype

/-- A function refuses too few arguments, and too many unless it is variadic. -/
def Refuses (p : Prototype) (count : Nat) : Prop :=
  count < p.required ∨ p.arity < count ∧ p.variadic = false

instance (p : Prototype) (count : Nat) : Decidable (p.Refuses count) :=
  inferInstanceAs (Decidable (_ ∨ _))

/-- How many arguments a function asks for that refuses some. -/
def expected (p : Prototype) (count : Nat) : Nat :=
  if count < p.required then p.required else p.arity

/-- The values of the parameters. -/
def bound (p : Prototype) (args : Array Value) : Array Value :=
  args.extract 0 p.arity ++ Array.replicate (p.arity - args.size) .nil

/-- The arguments that no parameter takes. -/
def surplus (p : Prototype) (args : Array Value) : Array Value := args.extract p.arity args.size

variable {p : Prototype} {args : Array Value}

@[simp] theorem size_bound (p : Prototype) (args : Array Value) :
    (p.bound args).size = p.arity := by
  simp only [bound, Array.size_append, Array.size_extract, Array.size_replicate]
  omega

theorem bound_getElem? {i : Nat} (hi : i < p.arity) :
    (p.bound args)[i]? = some (args.getD i .nil) := by
  rw [Array.getD_eq_getD_getElem?]
  by_cases hgiven : i < args.size
  · rw [bound, Array.getElem?_append_left (by simp only [Array.size_extract]; omega),
      Array.getElem?_extract_of_lt (by omega), Array.getElem?_eq_getElem hgiven, Option.getD_some]
    simp only [Nat.zero_add]
  · have hsize : (args.extract 0 p.arity).size = args.size := by
      simp only [Array.size_extract]
      omega
    rw [bound, Array.getElem?_append_right (by omega), hsize, Array.getElem?_replicate,
      if_pos (by omega), Array.getElem?_eq_none (by omega), Option.getD_none]

/-- Without surplus, the arguments are followed by nils. -/
theorem bound_of_size_le (hsize : args.size ≤ p.arity) :
    p.bound args = args ++ Array.replicate (p.arity - args.size) .nil := by
  rw [bound, Array.extract_eq_self_of_le hsize]

theorem extract_zero_min (arity : Nat) (args : Array Value) :
    args.extract 0 (min arity args.size) = args.extract 0 arity := by
  rcases Nat.le_total arity args.size with hle | hle
  · rw [Nat.min_eq_left hle]
  · rw [Nat.min_eq_right hle, Array.extract_eq_self_of_le hle, Array.extract_size]

theorem surplus_min (p : Prototype) (args : Array Value) :
    args.extract (min p.arity args.size) args.size = p.surplus args := by
  rw [surplus]
  rcases Nat.le_total p.arity args.size with hle | hle
  · rw [Nat.min_eq_left hle]
  · rw [Nat.min_eq_right hle, Array.extract_empty_of_stop_le_start (le_refl _),
      Array.extract_empty_of_stop_le_start hle]

end Prototype

namespace Machine

variable {host : Host} {m m' : Machine} {ms : Nat → Machine} {n t : Nat}

/-! Binding. -/

/-- The machine with the parameters of a call on top of a stack. -/
def binding (m : Machine) (proto : Prototype) (stack args : Array Value) : Machine :=
  if proto.variadic then
    let made := m.alloc (.array (proto.surplus args))
    { made.2 with stack := (stack ++ proto.bound args).push made.1 }
  else { m with stack := stack ++ proto.bound args }

theorem bindArguments_eq {proto : Prototype} {stack args : Array Value}
    (hcount : proto.variadic = true ∨ args.size ≤ proto.arity) :
    bindArguments proto args.size { m with stack := stack ++ args } =
      .ok () (m.binding proto stack args) := by
  unfold bindArguments binding
  dsimp only
  by_cases hvariadic : proto.variadic = true
  · have hle : args.size - proto.arity ≤ (stack ++ args).size := by
      rw [Array.size_append]
      omega
    have hstart : (stack ++ args).size - (args.size - proto.arity) =
        stack.size + min proto.arity args.size := by
      rw [Array.size_append]
      omega
    have htake : takeTop (args.size - proto.arity) { m with stack := stack ++ args } =
        .ok (proto.surplus args) { m with stack := stack ++ args.extract 0 proto.arity } := by
      rw [takeTop_eq hle]
      dsimp only
      rw [hstart, ArraySlots.shrink_append, ArraySlots.extract_append,
        Prototype.extract_zero_min, Prototype.surplus_min]
    rw [if_pos hvariadic, if_pos hvariadic, get_bind, if_neg (Nat.not_lt.2 hle), bind_of_ok htake,
      Prototype.bound, ← Array.append_assoc]
    rfl
  · rw [if_neg hvariadic, if_neg hvariadic,
      Prototype.bound_of_size_le (hcount.resolve_left hvariadic), ← Array.append_assoc]
    rfl

/-- The call of a closure has begun, with the callee and the arguments in their slots. -/
structure Receives (m : Machine) (r : Ref) (proto : Prototype) (below : Array Value)
    (callee : Value) (args : Array Value) (m' : Machine) : Prop where
  frames : m'.frames = { closure := r, proto, ip := 0, base := below.size } :: m.frames
  kept : ∀ i < below.size, m'.stack[i]? = below[i]?
  called : m'.stack[below.size]? = some callee
  given : ∀ i < min args.size proto.arity, m'.stack[below.size + 1 + i]? = args[i]?
  missing : ∀ i < proto.arity, args.size ≤ i → m'.stack[below.size + 1 + i]? = some .nil
  /-- A variadic function finds the surplus in one slot more, and all other objects as before. -/
  gathered : proto.variadic = true → m.heap.WellFormed → ∃ s,
    m'.stack[below.size + 1 + proto.arity]? = some (.ref s) ∧ m.heap.get? s = none ∧
      ∀ t, m'.heap.get? t = if t = s then some (.array (proto.surplus args)) else m.heap.get? t
  plain : proto.variadic = false → m'.heap = m.heap
  size : m'.stack.size = below.size + 1 + proto.paramSlots
  rest : m' = { m with heap := m'.heap, stack := m'.stack, frames := m'.frames }

/-- The stack of a call, but for the array of a variadic function. -/
theorem parameters_getElem? {proto : Prototype} {below args : Array Value} {callee : Value}
    {i : Nat} (hi : i < proto.arity) :
    (below.push callee ++ proto.bound args)[below.size + 1 + i]? = some (args.getD i .nil) := by
  rw [Array.getElem?_append_right (by rw [Array.size_push]; omega), Array.size_push,
    Nat.add_sub_cancel_left, Prototype.bound_getElem? hi]

/-- Binding leaves the callee where it is, with the parameters above it. -/
theorem receives_binding (m : Machine) (r : Ref) (proto : Prototype) (below : Array Value)
    (callee : Value) (args : Array Value) :
    Receives m r proto below callee args
      { m.binding proto (below.push callee) args with
        frames := { closure := r, proto, base := below.size } :: m.frames } := by
  have hsize : (below.push callee ++ proto.bound args).size = below.size + 1 + proto.arity := by
    rw [Array.size_append, Array.size_push, Prototype.size_bound]
  -- a variadic function has one slot more, above all the others
  have hslots : ∀ i < below.size + 1 + proto.arity,
      (m.binding proto (below.push callee) args).stack[i]? =
        (below.push callee ++ proto.bound args)[i]? := by
    intro i hi
    unfold binding
    split
    · rw [Array.getElem?_push, if_neg (by omega)]
    · rfl
  have hlow : ∀ i ≤ below.size, (m.binding proto (below.push callee) args).stack[i]? =
      (below.push callee)[i]? := by
    intro i hi
    rw [hslots i (by omega), Array.getElem?_append_left (by rw [Array.size_push]; omega)]
  refine ⟨rfl, ?_, ?_, ?_, ?_, ?_, ?_, ?_, ?_⟩
  · intro i hi
    rw [hlow i (Nat.le_of_lt hi), Array.getElem?_push, if_neg (by omega)]
  · rw [hlow _ (le_refl _), Array.getElem?_push_size]
  · intro i hi
    rw [hslots _ (by omega), parameters_getElem? (by omega), Array.getD_eq_getD_getElem?,
      Array.getElem?_eq_getElem (by omega), Option.getD_some]
  · intro i hi hmissing
    rw [hslots _ (by omega), parameters_getElem? hi, Array.getD_eq_getD_getElem?,
      Array.getElem?_eq_none hmissing, Option.getD_none]
  · intro hvariadic hwf
    unfold binding
    rw [if_pos hvariadic]
    refine ⟨_, ?_, ?_, fun t => Heap.get?_alloc hwf _ t⟩
    · rw [← hsize]
      exact Array.getElem?_push_size
    · exact Heap.get?_alloc_vacant hwf _
  · intro hplain
    unfold binding
    rw [if_neg (by rw [hplain]; nofun)]
  · unfold binding Prototype.paramSlots
    split
    · rw [Array.size_push, hsize]
      rfl
    · exact hsize
  · unfold binding
    split <;> rfl

/-- What comes of a call of a closure with arguments on the stack. -/
structure Binding (m : Machine) (r : Ref) (proto : Prototype) (below : Array Value)
    (callee : Value) (args : Array Value) (result : EStateM.Result Signal Machine Unit) :
    Prop where
  raises : (∃ e q, result = .error (.raised e) q) ↔ proto.Refuses args.size
  /-- The exception tells the arguments that were expected, and the stack stays. -/
  refused : proto.Refuses args.size →
    let start : Machine := { m with stack := below.push callee ++ args }
    let made := start.makeException .argumentError
      s!"function '{proto.name}' expected {proto.expected args.size} arguments but got {args.size}"
    result = .error (.raised made.1) made.2
  overflows : (∃ limit q, result = .error (.fault (.frameOverflow limit)) q) ↔
    ¬ proto.Refuses args.size ∧ m.settings.maxFrames ≤ m.frames.length
  /-- The machine stays. -/
  full : ¬ proto.Refuses args.size → m.settings.maxFrames ≤ m.frames.length →
    result = .error (.fault (.frameOverflow m.settings.maxFrames))
      { m with stack := below.push callee ++ args }
  begins : ¬ proto.Refuses args.size → m.frames.length < m.settings.maxFrames →
    ∃ m', result = .ok () m' ∧ Receives m r proto below callee args m'

theorem callClosure_of_refuses {r : Ref} {proto : Prototype} {count : Nat}
    (hrefuses : proto.Refuses count) (m : Machine) :
    let made := m.makeException .argumentError
      s!"function '{proto.name}' expected {proto.expected count} arguments but got {count}"
    callClosure r proto count m = .error (.raised made.1) made.2 := by
  change callClosure r proto count m =
    misuse (.argumentCount proto.name (proto.expected count) count) m
  unfold callClosure Prototype.expected
  rw [get_bind]
  by_cases hfew : count < proto.required
  · rw [if_pos hfew, if_pos hfew]
  · obtain ⟨hmany, hplain⟩ := hrefuses.resolve_left hfew
    rw [if_neg hfew, if_neg hfew, if_pos (by simp [hmany, hplain])]

theorem callClosure_of_takes {r : Ref} {proto : Prototype} {below args : Array Value}
    {callee : Value} (htakes : ¬ proto.Refuses args.size) (m : Machine) :
    callClosure r proto args.size { m with stack := below.push callee ++ args } =
      if m.settings.maxFrames ≤ m.frames.length then
        .error (.fault (.frameOverflow m.settings.maxFrames))
          { m with stack := below.push callee ++ args }
      else .ok () { m.binding proto (below.push callee) args with
        frames := { closure := r, proto, base := below.size } :: m.frames } := by
  obtain ⟨henough, hfits⟩ := not_or.1 htakes
  have hcount : proto.variadic = true ∨ args.size ≤ proto.arity := by
    by_cases hvariadic : proto.variadic = true
    · exact Or.inl hvariadic
    · refine Or.inr (Nat.le_of_not_lt fun hmany => hfits ⟨hmany, ?_⟩)
      exact Bool.eq_false_of_not_eq_true hvariadic
  have hmany : ¬ (decide (proto.arity < args.size) && !proto.variadic) = true := by
    rcases hcount with hvariadic | hle
    · simp [hvariadic]
    · simp [Nat.not_lt.2 hle]
  unfold callClosure
  rw [get_bind, if_neg henough, if_neg hmany]
  by_cases hdeep : m.settings.maxFrames ≤ m.frames.length
  · rw [if_pos hdeep, if_pos hdeep]
    rfl
  · have hsize : (m.binding proto (below.push callee) args).stack.size =
        below.size + 1 + proto.paramSlots := (receives_binding m r proto below callee args).size
    have hframes : (m.binding proto (below.push callee) args).frames = m.frames := by
      unfold binding
      split <;> rfl
    have hbase : (m.binding proto (below.push callee) args).stack.size - proto.paramSlots - 1 =
        below.size := by omega
    rw [if_neg hdeep, if_neg hdeep, bind_of_ok (bindArguments_eq hcount), get_bind,
      if_neg (by omega), hbase, hframes]
    rfl

theorem binding_callClosure (m : Machine) (r : Ref) (proto : Prototype) (below : Array Value)
    (callee : Value) (args : Array Value) :
    Binding m r proto below callee args
      (callClosure r proto args.size { m with stack := below.push callee ++ args }) := by
  by_cases hrefuses : proto.Refuses args.size
  · rw [callClosure_of_refuses hrefuses]
    exact {
      raises := iff_of_true ⟨_, _, rfl⟩ hrefuses
      refused := fun _ => rfl
      overflows := iff_of_false (by rintro ⟨_, _, h⟩; cases h) fun h => h.1 hrefuses
      full := fun htakes => absurd hrefuses htakes
      begins := fun htakes => absurd hrefuses htakes }
  · rw [callClosure_of_takes hrefuses]
    by_cases hdeep : m.settings.maxFrames ≤ m.frames.length
    · rw [if_pos hdeep]
      exact {
        raises := iff_of_false (by rintro ⟨_, _, h⟩; cases h) hrefuses
        refused := fun h => absurd h hrefuses
        overflows := iff_of_true ⟨_, _, rfl⟩ ⟨hrefuses, hdeep⟩
        full := fun _ _ => rfl
        begins := fun _ hroom => absurd hdeep (Nat.not_le.2 hroom) }
    · rw [if_neg hdeep]
      exact {
        raises := iff_of_false (by rintro ⟨_, _, h⟩; cases h) hrefuses
        refused := fun h => absurd h hrefuses
        overflows := iff_of_false (by rintro ⟨_, _, h⟩; cases h) fun h => hdeep h.2
        full := fun _ hfull => absurd hfull hdeep
        begins := fun _ _ => ⟨_, rfl, receives_binding m r proto below callee args⟩ }

/-! The calls under way. -/

theorem Called.length_le (hdiscreet : host.Discreet) (hsettled : m.Settled) {base : Nat}
    (hcalled : Called host base m m') : m'.frames.length ≤ m.settings.maxFrames := by
  obtain ⟨q, q', r, c, hquiet, hroom, -, hbinds, rfl⟩ := hcalled
  have hbound := (hquiet.trans hbinds.quiet).undisturbed hdiscreet hsettled
  have hleft := hquiet.undisturbed hdiscreet hsettled
  rw [hleft.frames, hleft.settings] at hroom
  show q'.frames.length + 1 ≤ _
  rw [hbound.frames]
  exact hroom

/-- A turn makes the calls under way more only within the settings. -/
theorem Turn.length_le (hdiscreet : host.Discreet) (hturn : Turn host m m') (hm : m.Coherent) :
    m'.frames.length ≤ max m.frames.length m.settings.maxFrames := by
  have hsame {depth : Nat} (h : depth ≤ m.frames.length) :
      depth ≤ max m.frames.length m.settings.maxFrames := h.trans (Nat.le_max_left _ _)
  cases hturn with
  | goes hframes _ hquiet | makes hframes _ _ _ hquiet =>
    refine hsame (Nat.le_of_eq ?_)
    rw [← length_frames_atOffset m]
    exact congrArg List.length (hquiet.undisturbed_atOffset hdiscreet hframes).frames
  | calls hframes _ _ hcalled =>
    exact (hcalled.length_le hdiscreet (settled_of_frames (frames_atOffset hframes _))).trans
      (Nat.le_max_right _ _)
  | enters | resumes => exact hsame (Nat.le_of_eq (length_frames_atOffset m _))
  | pops | returns => exact hsame (Nat.le_of_eq (length_resumeAt (le_refl _) _))
  | leaves hframes =>
    refine hsame ?_
    rw [hframes]
    exact Nat.le_succ _
  | @throws _ _ _ _ gone _ region _ _ _ _ _ _ hregions =>
    have hdepth := (hm.regionDepth region (by simp [hregions])).2
    exact hsame ((length_resumeAt hdepth _).trans_le hdepth)

theorem Follows.kept (hdiscreet : host.Discreet) (hlaunched : Launched host (ms 0))
    (hfollows : Follows host ms n) (ht : t ≤ n) : Kept host (ms 0) (ms t) := by
  induction t with
  | zero => exact .refl _
  | succ t ih =>
    have hstep := (kept_collectIfDue (ms t)).trans
      ((hfollows.turn hdiscreet hlaunched ht).kept hdiscreet)
    exact (ih (by omega)).trans hstep

theorem Follows.length_le (hdiscreet : host.Discreet) (hlaunched : Launched host (ms 0))
    (hfollows : Follows host ms n) (ht : t ≤ n) :
    (ms t).frames.length ≤ max 1 (ms 0).settings.maxFrames := by
  induction t with
  | zero =>
    obtain ⟨⟨f, hfirst⟩, -⟩ := hlaunched.first hdiscreet
    rw [hfirst]
    exact Nat.le_max_left _ _
  | succ t ih =>
    have hm := hfollows.coherent hdiscreet hlaunched (show t ≤ n by omega)
    have hleft := undisturbed_collectIfDue (ms t)
    have hlength := (hfollows.turn hdiscreet hlaunched ht).length_le hdiscreet (hleft.coherent hm)
    rw [hleft.frames, hleft.settings, (hfollows.kept hdiscreet hlaunched (by omega)).settings]
      at hlength
    have := ih (by omega)
    omega

/-- A call of a closure is refused for its arguments, overflows, or begins with each argument in its
slot; so a run never has more calls under way than the settings allow, its first call apart. -/
theorem closures_bind_arguments (hdiscreet : host.Discreet) :
    (∀ (m : Machine) (r : Ref) (proto : Prototype) (below : Array Value) (callee : Value)
      (args : Array Value), Binding m r proto below callee args
        (callClosure r proto args.size { m with stack := below.push callee ++ args })) ∧
    ∀ (ms : Nat → Machine) (n : Nat), Launched host (ms 0) → Follows host ms n →
      ∀ t ≤ n, (ms t).frames.length ≤ max 1 (ms 0).settings.maxFrames :=
  ⟨binding_callClosure, fun _ _ hlaunched hfollows _ ht =>
    hfollows.length_le hdiscreet hlaunched ht⟩

/-- A function of one parameter and any number of further arguments. -/
def collector : Prototype := { name := "collector", arity := 1, required := 1, variadic := true }

/-- Without arguments the call of the function raises an exception, and of three arguments it
gathers two; and the run with the setter has two calls under way at most. -/
theorem closures_bind_arguments_collector :
    (∃ e q, callClosure (.object 0) collector 0 { bare with stack := #[.nil, .bool true] } =
      .error (.raised e) q) ∧
    (∃ m', callClosure (.object 0) collector 3
        { bare with stack := #[.nil, .bool true, .number 1, .number 2, .number 3] } = .ok () m' ∧
      m'.stack[2]? = some (.number 1) ∧ m'.stack.size = 4 ∧ m'.frames.map Frame.base = [1]) ∧
    (setterStates 3).frames.length = 2 ∧ 2 ≤ max 1 (setterStates 0).settings.maxFrames := by
  have hfollows : Follows .idle setterStates 6 :=
    follows_states (show ∀ t < 6, _ by decide +kernel)
  have hlaunched : Launched .idle (setterStates 0) := .script rfl (fun _ => ⟨rfl, rfl, rfl⟩) _
  obtain ⟨hbinding, hdepth⟩ := closures_bind_arguments Host.discreet_idle
  have hnone := hbinding bare (.object 0) collector #[.nil] (.bool true) #[]
  have hthree := hbinding bare (.object 0) collector #[.nil] (.bool true)
    #[.number 1, .number 2, .number 3]
  have htwo : (setterStates 3).frames.length = 2 := by decide +kernel
  have hbegins := hthree.begins (by decide) (by decide)
  obtain ⟨m', hresult, hreceives⟩ := hbegins
  refine ⟨hnone.raises.2 (by decide), ⟨m', hresult, ?_, hreceives.size, ?_⟩, htwo, ?_⟩
  · exact hreceives.given 0 (by decide)
  · rw [hreceives.frames]
    rfl
  · rw [← htwo]
    exact hdepth setterStates 6 hlaunched hfollows 3 (by decide)

end Machine

end ScriptMachine
