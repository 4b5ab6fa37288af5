import ScriptMachine.Proofs.Code.Validity
import ScriptMachine.Proofs.Machine.GlobalBindings
import ScriptMachine.Proofs.Machine.StockNatives

/-!
Names of globals. In every machine that comes up in a session each name shows what was bound to it
last, by the host, by a native or by an instruction. The host asks for a name by its contents and an
instruction by its reference, and both see the same.
-/

namespace ScriptMachine

namespace Machine

variable {host : Host} {settings : Settings} {m : Machine} {bs : GlobalRecord} {α : Type}

/-! A new machine. -/

/-- What a new machine has bound: each exception class to its name. -/
def exceptionBindings (m : Machine) : GlobalRecord :=
  ExceptionKind.all.reverse.map fun kind => (kind.name, .ref (m.builtins.exception kind))

theorem BoundAs.allocEach (hm : m.BoundAs bs) (make : α → Object) (as : List α) :
    (m.allocEach make as).2.BoundAs bs := by
  induction as generalizing m with
  | nil => exact hm
  | cons a rest ih => exact ih (hm.alloc (make a))

theorem BoundAs.installExceptions (hm : m.BoundAs bs) (init : Value) (root : Option Ref)
    (kinds : List ExceptionKind) :
    (m.installExceptions init root kinds).2.BoundAs
      ((m.installExceptions init root kinds).1.reverse.map (fun p => (p.1.name, .ref p.2)) ++ bs) ∧
    (m.installExceptions init root kinds).1.map Prod.fst = kinds := by
  induction kinds generalizing m root bs with
  | nil => exact ⟨hm, rfl⟩
  | cons kind rest ih =>
    let cls : Class := { name := kind.name, superclass := root, constructor? := some init }
    obtain ⟨hrest, hkinds⟩ :=
      ih ((hm.alloc (.cls cls)).defineGlobal kind.name (.ref (m.heap.alloc (.cls cls)).1))
        (root <|> some (m.heap.alloc (.cls cls)).1)
    refine ⟨?_, congrArg (kind :: ·) hkinds⟩
    unfold Machine.installExceptions
    dsimp only
    rw [List.reverse_cons, List.map_append, List.append_assoc]
    exact hrest

/-- Elements that differ are looked up each at its reference. -/
theorem refOf_of_mem [BEq α] [LawfulBEq α] {refs : List (α × Ref)}
    (hnodup : (refs.map Prod.fst).Nodup) : ∀ p ∈ refs, refOf refs p.1 = p.2 := by
  induction refs with
  | nil => nofun
  | cons q rest ih =>
    rw [List.map_cons, List.nodup_cons] at hnodup
    intro p hp
    unfold refOf
    rw [List.lookup_cons]
    rcases List.mem_cons.1 hp with rfl | hmem
    · rw [beq_self_eq_true]
      rfl
    · have hne : (p.1 == q.1) = false := by
        rw [beq_eq_false_iff_ne]
        intro heq
        exact hnodup.1 (heq ▸ List.mem_map_of_mem hmem)
      rw [hne]
      exact ih hnodup.2 p hmem

theorem boundAs_new (settings : Settings) :
    (Machine.new settings).BoundAs (Machine.new settings).exceptionBindings := by
  unfold Machine.new
  dsimp only
  -- each stage gets a name before the next, so that nothing is evaluated
  have hempty :=
    Heap.founded_new settings.gcInitialThreshold settings.gcGrowthFactor settings.stressGc
  generalize Heap.new settings.gcInitialThreshold settings.gcGrowthFactor settings.stressGc = h
    at hempty ⊢
  have hfirst := hempty.intern "message"
  generalize h.intern "message" = first at hfirst ⊢
  have hsecond := hfirst.intern "stacktrace"
  generalize first.2.intern "stacktrace" = second at hsecond ⊢
  generalize hm : ({
      settings, heap := second.2
      builtins :=
        { (default : Builtins) with message := first.1, stacktrace := second.1 } } : Machine) = m
  have hbare : m.BoundAs [] := by
    rw [← hm]
    exact ⟨⟨hsecond.wellFormed, hsecond.rest⟩, Table.inOrder_empty, fun _ => rfl⟩
  generalize hprimitives : m.allocEach (fun p => .cls { name := p.name }) Primitive.all = primitives
  have hthird : primitives.2.BoundAs [] := hprimitives ▸ hbare.allocEach _ Primitive.all
  generalize hinit : primitives.2.alloc (.native _) = init
  have hfourth : init.2.BoundAs [] := hinit ▸ hthird.alloc _
  generalize hexceptions : init.2.installExceptions init.1 none ExceptionKind.all = exceptions
  obtain ⟨hlast, hkinds⟩ := hexceptions ▸ hfourth.installExceptions init.1 none ExceptionKind.all
  have hnodup : (exceptions.1.map Prod.fst).Nodup := by
    rw [hkinds]
    decide
  have hrefs := refOf_of_mem hnodup
  have hbindings : exceptions.1.reverse.map (fun p => (p.1.name, Value.ref p.2)) ++ [] =
      ExceptionKind.all.reverse.map fun kind => (kind.name, .ref (refOf exceptions.1 kind)) := by
    rw [← hkinds, ← List.map_reverse, List.map_map, List.append_nil]
    refine List.map_congr_left fun p hp => ?_
    rw [Function.comp_apply, hrefs p (List.mem_reverse.1 hp)]
  rw [hbindings] at hlast
  exact hlast.aside rfl rfl

/-! Sessions. -/

/-- The machines that come up in the sessions of a host, with what was bound. Requests and
instructions say what they bind before they are carried out, and natives by the requests they
make. -/
inductive ReachedAfter (host : Host) (settings : Settings) : GlobalRecord → Machine → Prop where
  | new : ReachedAfter host settings (Machine.new settings).exceptionBindings (Machine.new settings)
  | request {bs : GlobalRecord} {m : Machine} (hreached : ReachedAfter host settings bs m)
      (q : Request) (hproper : q.Proper m) :
      ReachedAfter host settings (q.bindings m ++ bs) (q.perform m)
  | collect {bs : GlobalRecord} {m : Machine} (hreached : ReachedAfter host settings bs m) :
      ReachedAfter host settings bs m.collect.2
  | bind {bs : GlobalRecord} {m : Machine} (hreached : ReachedAfter host settings bs m)
      {op : Opcode} (hop : m.opcode? = some op) (hmem : op ∈ globalOps) :
      ReachedAfter host settings (m.globalWork ++ bs) (final (instruction host m))
  | act {bs more : GlobalRecord} {m : Machine} (hreached : ReachedAfter host settings bs m)
      (a : Activity) (hproper : a.Proper m)
      (hop : a = .instruction → ∀ op ∈ globalOps, m.opcode? ≠ some op)
      (hstirs : Stirs host more m (a.perform host m)) :
      ReachedAfter host settings (more ++ bs) (a.perform host m)

theorem ReachedAfter.reached (hreached : ReachedAfter host settings bs m) :
    Reached host settings m := by
  induction hreached with
  | new => exact .new
  | request _ q hproper ih => exact ih.request q hproper
  | collect _ ih => exact ih.collect
  | bind _ _ _ ih => exact ih.act .instruction ⟨trivial, nofun⟩
  | act _ a hproper _ _ ih => exact ih.act a hproper

/-- Every machine that comes up has a record. -/
theorem reached_iff_exists_bindings (hhost : host.Serves) :
    Reached host settings m ↔ ∃ bs, ReachedAfter host settings bs m := by
  refine ⟨fun hreached => ?_, fun ⟨_, hreached⟩ => hreached.reached⟩
  induction hreached with
  | new => exact ⟨_, .new⟩
  | request _ q hproper ih => exact ⟨_, .request ih.choose_spec q hproper⟩
  | collect _ ih => exact ⟨_, .collect ih.choose_spec⟩
  | @act m _ a hproper ih =>
    obtain ⟨bs, hreached⟩ := ih
    by_cases hop : a = .instruction → ∀ op ∈ globalOps, m.opcode? ≠ some op
    · obtain ⟨more, hstirs⟩ := exists_stirs hhost a hop
      exact ⟨_, hreached.act a hproper hop hstirs⟩
    · push Not at hop
      obtain ⟨rfl, op, hmem, hop⟩ := hop
      exact ⟨_, hreached.bind hop hmem⟩

/-- A session keeps the record. -/
theorem ReachedAfter.boundAs (horderly : host.Orderly)
    (hreached : ReachedAfter host settings bs m) : m.BoundAs bs := by
  induction hreached with
  | new => exact boundAs_new settings
  | request _ q _ ih => exact ih.request q
  | collect _ ih => exact ih.collect
  | bind hbefore hop hmem ih =>
    exact ih.bindsGlobal (hbefore.reached.sound horderly) hop hmem
  | act _ a _ _ hstirs ih => exact ih.stirs hstirs

end Machine

namespace Host

open Machine

variable {m : Machine}

theorem asked_raise (kind : ExceptionKind) (message : String) :
    ∃ bs, m.Asked bs (raise kind message m).2 :=
  ⟨_, .request (.request .done (.makeException kind message))
    (.raise (m.makeException kind message).1)⟩

theorem asked_answer (v : Verdict) : ∃ bs, m.Asked bs (answer v m).2 := by
  cases v with
  | failed f => exact asked_raise _ _
  | _ => exact ⟨_, .done⟩

theorem serves_stock : (stock .closed).Serves := by
  intro name receiver args m
  have hperformed := performed_stock .closed name receiver args m
  generalize stock .closed name receiver args m = outcome at hperformed ⊢
  cases hperformed with
  | gives | nothing => exact ⟨_, .done⟩
  | gathers => exact ⟨_, .request .done (.alloc (.array args))⟩
  | interns text => exact ⟨_, .request .done (.intern text)⟩
  | raises kind message => exact asked_raise kind message
  | raisesAndCollects kind message =>
    obtain ⟨bs, hasked⟩ := asked_raise (m := m) kind message
    exact ⟨bs, .collect hasked⟩
  | throws i => exact ⟨_, .request .done (.raise _)⟩
  | defines name i => exact ⟨_, .request .done (.defineGlobal name _)⟩
  | collects => exact ⟨_, .collect .done⟩
  | calls | runs => exact asked_answer _

end Host

namespace Machine

variable {host : Host} {settings : Settings} {m : Machine} {bs : GlobalRecord}

/-- Searches by contents and by reference agree in every table over a pool that holds its keys,
whatever was set, removed, interned and collected before. So each name of a global shows what was
bound to it last. -/
theorem contents_agree_with_references :
    (∀ (actions : List Table.Action) (i : Nat), Table.Store.Live {} actions →
      let s := (Table.Store.run {} actions).2
      ∀ text,
        (∀ k, s.pool.lookup? text = some k ↔
          ∃ x, s.pool.arena.get? k = some x ∧ x.text = text) ∧
        (∀ k, s.pool.lookup? text = some k →
          Table.entryOfText? (s.tables i) s.pool text =
            Table.entry? (s.tables i) s.pool (.ref (.text k))) ∧
        (s.pool.lookup? text = none → Table.entryOfText? (s.tables i) s.pool text = none)) ∧
    ∀ (host : Host) (settings : Settings), host.Orderly → host.Serves →
      (∀ m, Reached host settings m ↔ ∃ bs, ReachedAfter host settings bs m) ∧
      ∀ bs m, ReachedAfter host settings bs m → ∀ name,
        m.global? name = bs.lookup name ∧
        m.global? name = (m.heap.pool.lookup? name).bind fun k =>
          m.globals.get? m.heap.pool (.ref (.text k)) := by
  constructor
  · intro actions i hlive s text
    obtain ⟨hp, htables⟩ := Table.Store.ordered_empty.run hlive
    exact ⟨hp.indexed text, fun k hk => (htables i).entryOfText?_of_interned hp hk,
      (htables i).entryOfText?_of_absent hp⟩
  · intro host settings horderly hhost
    refine ⟨fun m => reached_iff_exists_bindings hhost, fun bs m hreached name => ?_⟩
    have hm := hreached.boundAs horderly
    refine ⟨hm.latest name, ?_⟩
    rw [global?, hm.globals.entryOfText?_eq hm.tidy.wellFormed.pool]
    cases m.heap.pool.lookup? name <;> rfl

/-- A text and a number as keys of one table, of which the number is removed. -/
def numberRemoved : List Table.Action :=
  [.intern "a", .set 0 (.ref (.text 0)) (.bool true) .value, .set 0 (.number 0) .nil .getter,
    .remove 0 (.number 0), .intern "b"]

/-- The text stays in its slot. -/
theorem get?_numberRemoved :
    (Pool.empty.intern "a").2.arena.get? 0 = some ⟨"a", Hash.text "a"⟩ ∧
      ((Pool.empty.intern "a").2.intern "b").2.arena.get? 0 = some ⟨"a", Hash.text "a"⟩ := by
  have hnew : Pool.empty.lookup? "a" = none := by simp [Pool.lookup?, Pool.empty]
  have hfirst : (Pool.empty.intern "a").2.arena.get? 0 = some ⟨"a", Hash.text "a"⟩ := by
    rw [Pool.intern_of_new hnew]
    rfl
  exact ⟨hfirst, (Pool.wellFormed_empty.intern "a").get?_intern "b" hfirst⟩

theorem live_numberRemoved : Table.Store.Live {} numberRemoved := by
  obtain ⟨hfirst, hsecond⟩ := get?_numberRemoved
  refine Table.Store.sound_empty.live ?_
  simp [numberRemoved, Table.Store.Steady, Table.Action.keys, Table.Store.pool_step,
    Table.Action.onPool, Pool.Holds, hfirst, hsecond]

/-- Binds a name to true. -/
def bindingScript (name : Ref) : Blob :=
  let code := ((({} : Blob).pushOp .pushTrue 1).pushOp .globalDefine 1).pushShort 0 1
  { code with constants := #[.ref name] }

theorem check_bindingScript {h : Heap} {i : Nat} {name : String}
    (hname : h.text? (.ref (.text i)) = some name) :
    Validation.check h (bindingScript (.text i)) = .ok () := by
  have hdecoded : Instruction.decodeAll h.captured? (bindingScript (.text i)) =
      { instructions := #[⟨0, .pushTrue, .none, 1⟩, ⟨1, .globalDefine, .const 0, 3⟩]
        defect? := none } := by cbv
  refine check_of_text rfl ?_
  unfold Validation.localDefect?
  rw [hdecoded]
  simp [Validation.constantDefect?, Validation.addressDefect?, Validation.expected?,
    bindingScript, Blob.constant?, Validation.Expected.admits, hname]

/-- A machine that runs the script has the name bound to true. -/
theorem ReachedAfter.bindingScript (hreached : ReachedAfter host settings bs m)
    (hidle : m.frames = []) {i : Nat} {name : String}
    (hname : m.heap.text? (.ref (.text i)) = some name) :
    ∃ m', ReachedAfter host settings ((name, .bool true) :: bs) m' := by
  let script : Prototype := .script (Machine.bindingScript (.text i))
  have hproper : (Activity.enter script).Proper m :=
    Activity.proper_enter_of_text hidle (check_bindingScript hname) rfl hname
  let stored : Machine := (m.alloc (.function script)).2
  let function : Ref := (m.heap.alloc (.function script)).1
  let closure : Object := .closure { function, proto := script, upvalues := [] }
  have hframed : Stirs host [] (stored.alloc closure).2 (m.entered script) := .aside rfl rfl
  have hentered : Stirs host [] m (m.entered script) :=
    (Stirs.alloc m (.function script)).trans ((Stirs.alloc stored closure).trans hframed)
  have hbegun := hreached.act (.enter script) hproper nofun hentered
  let pushed : Machine := final (instruction host (m.entered script))
  have hpushed : ReachedAfter host settings bs pushed := by
    refine hbegun.act .instruction ⟨trivial, nofun⟩ (fun _ op hmem hop => ?_) (.aside rfl rfl)
    obtain rfl : Opcode.pushTrue = op := Option.some.inj hop
    revert hmem
    decide
  have hwork : pushed.globalWork = [(name, .bool true)] := by
    have hback : pushed.top? 0 = some (.bool true) := (top?_zero pushed).trans (by
      show ((m.stack.push _).push _).back? = _
      exact Array.back?_push)
    show pushed.defineWork (.ref (.text i)) = _
    rw [defineWork, hback, Option.map_some, keyBindings]
    show ((m.heap.text? (.ref (.text i))).map _).toList = _
    rw [hname]
    rfl
  have hop : pushed.opcode? = some .globalDefine := rfl
  exact ⟨_, hwork ▸ hpushed.bind hop (by decide)⟩

theorem contents_agree_with_references_bindingScript :
    Table.Store.Live {} numberRemoved ∧
      (let s := (Table.Store.run {} numberRemoved).2
      Table.entryOfText? (s.tables 0) s.pool "a" =
        Table.entry? (s.tables 0) s.pool (.ref (.text 0))) ∧
    ∃ m, ReachedAfter (Host.stock .closed) {}
        (("x", .bool true) :: ("x", .nil) :: (Machine.new {}).exceptionBindings) m ∧
      m.global? "x" = some (.bool true) := by
  obtain ⟨htables, hsessions⟩ := contents_agree_with_references
  refine ⟨live_numberRemoved, ?_, ?_⟩
  · obtain ⟨hindexed, hagree, -⟩ := htables numberRemoved 0 live_numberRemoved "a"
    exact hagree 0 ((hindexed 0).2 ⟨_, get?_numberRemoved.2, rfl⟩)
  · have hnew : ReachedAfter (Host.stock .closed) {} _ _ := .new
    have hbound := hnew.request (.defineGlobal "x" .nil) ⟨trivial, nofun⟩
    have hwf := (boundAs_new {}).tidy.wellFormed
    obtain ⟨m, hm⟩ := hbound.bindingScript rfl (Heap.text?_intern_self hwf "x")
    obtain ⟨-, hlatest⟩ := hsessions (Host.stock .closed) {} Host.orderly_stock Host.serves_stock
    exact ⟨m, hm, (hlatest _ m hm "x").1⟩

end Machine

end ScriptMachine
