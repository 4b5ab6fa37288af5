import ScriptMachine.Proofs.Machine.Confinement.Calls
import ScriptMachine.Proofs.Machine.InsertionOrder
import ScriptMachine.Proofs.Machine.OrderedTables
import ScriptMachine.Proofs.Machine.Renaming
import ScriptMachine.Proofs.Table.ContentLookup

/-!
What is bound to globals. A record lists the names that were bound with their values, the latest
first, and describes a machine if each name shows what was bound to it last. Requests of a host and
two operations bind names, and what they bind can be read off before; so does a native, by the
requests it makes. Whatever else the machine does leaves every name with its value.
-/

namespace ScriptMachine

/-- What was bound to names, the latest first. -/
abbrev GlobalRecord := List (String × Value)

namespace Machine

/-- The globals are in order, and each name shows what was bound to it last. -/
structure BoundAs (m : Machine) (bs : GlobalRecord) : Prop where
  tidy : m.heap.Tidy
  globals : m.globals.InOrder m.heap.pool
  latest : ∀ name, m.global? name = bs.lookup name

variable {host : Host} {m m' : Machine} {bs more : GlobalRecord}

/-! Changes that bind nothing. -/

/-- The texts that are keys of the globals stay in their slots. -/
theorem BoundAs.keep (hm : m.BoundAs bs) (htidy : m'.heap.Tidy)
    (hglobals : m'.globals = m.globals)
    (htexts : ∀ i x, .text i ∈ m.globals.refs → m.heap.pool.arena.get? i = some x →
      m'.heap.pool.arena.get? i = some x) : m'.BoundAs bs where
  tidy := htidy
  globals := by
    rw [hglobals]
    exact hm.globals.keep htexts
  latest name := by
    rw [← hm.latest name, global?, hglobals, hm.globals.entryOfText?_keep
      hm.tidy.wellFormed.pool htidy.wellFormed.pool htexts, global?]

theorem BoundAs.aside (hm : m.BoundAs bs) (hheap : m'.heap = m.heap)
    (hglobals : m'.globals = m.globals) : m'.BoundAs bs :=
  hm.keep (hheap ▸ hm.tidy) hglobals fun _ _ _ hx => hheap ▸ hx

theorem BoundAs.alloc (hm : m.BoundAs bs) (o : Object) : (m.alloc o).2.BoundAs bs := by
  have htidy : (m.alloc o).2.heap.Tidy :=
    ⟨hm.tidy.wellFormed.alloc o, hm.tidy.rest.alloc hm.tidy.wellFormed o⟩
  exact hm.keep htidy rfl fun _ _ _ hx => hx

theorem BoundAs.intern (hm : m.BoundAs bs) (text : String) : (m.intern text).2.BoundAs bs := by
  have hwf := hm.tidy.wellFormed
  have htidy : (m.intern text).2.heap.Tidy := ⟨hwf.intern text, hm.tidy.rest.intern hwf text⟩
  exact hm.keep htidy rfl fun _ _ _ hx => hwf.pool.get?_intern text hx

theorem BoundAs.update (hm : m.BoundAs bs) (r : Ref) (g : Object → Object) :
    (m.update r g).BoundAs bs := by
  have htidy : (m.update r g).heap.Tidy := ⟨hm.tidy.wellFormed.update r g, hm.tidy.rest.update r g⟩
  refine hm.keep htidy rfl fun _ _ _ hx => ?_
  show (Heap.update _ _ _).pool.arena.get? _ = _
  rwa [Heap.pool_update]

/-- The globals are roots of a collection. -/
theorem BoundAs.collect (hm : m.BoundAs bs) : m.collect.2.BoundAs bs := by
  have hcollected := hm.tidy.rest.collected m.roots
  refine hm.keep ⟨hm.tidy.wellFormed.collect m.roots, hcollected.rest⟩ rfl fun i x hi hx => ?_
  refine (hcollected.texts i x).2 ⟨hx, .root ?_⟩
  simp only [roots, List.mem_append]
  tauto

/-- A machine goes over to one with the same records. -/
def KeepsBindings (m m' : Machine) : Prop := ∀ bs, m.BoundAs bs → m'.BoundAs bs

instance tolerant_keepsBindings : Tolerant KeepsBindings where
  trans h h' bs hm := h' bs (h bs hm)
  aside hheap hglobals _ hm := hm.aside hheap hglobals
  alloc _ o _ hm := hm.alloc o
  intern _ text _ hm := hm.intern text
  update _ r g _ hm := hm.update r g

/-! Bindings. -/

/-- What a value under a key binds: nothing if the key is no text. -/
def keyBindings (m : Machine) (key value : Value) : GlobalRecord :=
  ((m.heap.text? key).map fun name => (name, value)).toList

theorem lookup_keyBindings (m : Machine) (key value : Value) (bs : GlobalRecord) (name : String) :
    (m.keyBindings key value ++ bs).lookup name =
      if m.heap.text? key = some name then some value else bs.lookup name := by
  unfold keyBindings
  cases hkey : m.heap.text? key with
  | none => rfl
  | some text =>
    show List.lookup name ((text, value) :: bs) = _
    rw [List.lookup_cons]
    by_cases htext : text = name
    · rw [htext, beq_self_eq_true, if_pos rfl]
    · have hne : (name == text) = false := beq_eq_false_iff_ne.2 (Ne.symm htext)
      rw [hne, if_neg fun hsome => htext (Option.some.inj hsome)]

/-- A value is stored under a key that the pool holds. -/
theorem BoundAs.set (hm : m.BoundAs bs) {key : Value} (hkey : m.heap.pool.Holds key)
    (value : Value) :
    BoundAs { m with globals := m.globals.set m.heap.pool key value }
      (m.keyBindings key value ++ bs) where
  tidy := hm.tidy
  globals := hm.globals.insert hm.tidy.wellFormed.pool hkey value .value
  latest name := by
    rw [lookup_keyBindings]
    show ((m.globals.insert m.heap.pool key value .value).2.entryOfText? m.heap.pool name).map
      Entry.value = _
    rw [hm.globals.entryOfText?_insert hm.tidy.wellFormed.pool hkey, ← hm.latest name]
    show _ = if (m.heap.pool.textOf? key).map Interned.text = some name then _ else _
    split <;> rfl

theorem BoundAs.defineGlobal (hm : m.BoundAs bs) (name : String) (value : Value) :
    (m.defineGlobal name value).BoundAs ((name, value) :: bs) := by
  have hwf := hm.tidy.wellFormed
  have hset := (hm.intern name).set (holds_intern hwf name) value
  have htext : (m.intern name).2.heap.text? (m.intern name).1 = some name :=
    Heap.text?_intern_self hwf name
  rw [keyBindings, htext] at hset
  exact hset

/-! Requests of a host. -/

/-- A stream is bound to its name. -/
def bindStream (m : Machine) (stream : String) : Machine :=
  (m.intern stream.toLower).2.defineGlobal stream (m.intern stream.toLower).1

/-- What streams bind that are bound one after the other. -/
def streamBindings (m : Machine) : List String → GlobalRecord
  | [] => []
  | stream :: rest =>
    streamBindings (m.bindStream stream) rest ++ [(stream, (m.intern stream.toLower).1)]

/-- The machine and the array it has made of the program arguments. -/
def madeArguments (m : Machine) (args : List String) : Value × Machine :=
  (m.internAll args).2.alloc (.array (m.internAll args).1.toArray)

/-- What a request binds. -/
def Request.bindings (m : Machine) : Request → GlobalRecord
  | .defineGlobal name value => [(name, value)]
  | .defineNative n => [(n.name, (m.defineNative n).1)]
  | .installBootstrap args =>
    let argv := m.madeArguments args
    (argv.2.defineGlobal "ARGV" argv.1).streamBindings ["STDIN", "STDOUT", "STDERR"] ++
      [("ARGV", argv.1)]
  | _ => []

theorem BoundAs.bindStreams (hm : m.BoundAs bs) (streams : List String) :
    (streams.foldl bindStream m).BoundAs (m.streamBindings streams ++ bs) := by
  induction streams generalizing m bs with
  | nil => exact hm
  | cons stream rest ih =>
    have hbound := ih ((hm.intern stream.toLower).defineGlobal stream (m.intern stream.toLower).1)
    rw [streamBindings, List.append_assoc]
    exact hbound

theorem BoundAs.installBootstrap (hm : m.BoundAs bs) (args : List String) :
    (m.installBootstrap args).BoundAs ((Request.installBootstrap args).bindings m ++ bs) := by
  have hargs : (m.internAll args).2.BoundAs bs :=
    tolerates_internAll (R := KeepsBindings) args m bs hm
  have hargv := (hargs.alloc (.array (m.internAll args).1.toArray)).defineGlobal "ARGV"
    (m.madeArguments args).1
  have hstreams := hargv.bindStreams ["STDIN", "STDOUT", "STDERR"]
  rw [Request.bindings, List.append_assoc]
  exact hstreams

/-- A request adds what it binds to the record. -/
theorem BoundAs.request (hm : m.BoundAs bs) (q : Request) :
    (q.perform m).BoundAs (q.bindings m ++ bs) := by
  cases q with
  | alloc o => exact hm.alloc o
  | intern text => exact hm.intern text
  | defineGlobal name value => exact hm.defineGlobal name value
  | defineNative n => exact (hm.alloc (.native n)).defineGlobal n.name _
  | definePrimitive p n kind => exact ((hm.intern n.name).alloc (.native n)).update _ _
  | makeSwitch cases default? exit => exact hm.alloc _
  | makeException kind message =>
    exact tolerates_makeException (R := KeepsBindings) m kind message bs hm
  | raise e => exact hm.aside rfl rfl
  | pin v => exact hm.aside rfl rfl
  | unpin v =>
    show (m.unpin v).2.BoundAs bs
    unfold unpin
    dsimp only
    split
    · exact hm.aside rfl rfl
    · exact hm
  | redirect output errors => exact hm.aside rfl rfl
  | installBootstrap args => exact hm.installBootstrap args

/-! Natives. -/

/-- What requests and collections make of a machine, and what they bind. -/
inductive Asked (m : Machine) : GlobalRecord → Machine → Prop where
  | done : Asked m [] m
  | request {bs : GlobalRecord} {m' : Machine} (hasked : Asked m bs m') (q : Request) :
      Asked m (q.bindings m' ++ bs) (q.perform m')
  | collect {bs : GlobalRecord} {m' : Machine} (hasked : Asked m bs m') :
      Asked m bs m'.collect.2

theorem BoundAs.asked (hm : m.BoundAs bs) (hasked : m.Asked more m') :
    m'.BoundAs (more ++ bs) := by
  induction hasked with
  | done => exact hm
  | request _ q ih =>
    rw [List.append_assoc]
    exact ih.request q
  | collect _ ih => exact ih.collect

/-- What the machine does besides binding globals itself, and what the natives it runs bind. -/
inductive Stirs (host : Host) : GlobalRecord → Machine → Machine → Prop where
  | aside {m m' : Machine} (hheap : m'.heap = m.heap) (hglobals : m'.globals = m.globals) :
      Stirs host [] m m'
  | alloc (m : Machine) (o : Object) : Stirs host [] m (m.alloc o).2
  | intern (m : Machine) (text : String) : Stirs host [] m (m.intern text).2
  | update (m : Machine) (r : Ref) (g : Object → Object) : Stirs host [] m (m.update r g)
  | native {bs : GlobalRecord} {m : Machine} {name : String} {receiver : Value} {args : Array Value}
      (hasked : m.Asked bs (host name receiver args m).2) :
      Stirs host bs m (host name receiver args m).2
  | trans {bs more : GlobalRecord} {m m' m'' : Machine} (h : Stirs host bs m m')
      (h' : Stirs host more m' m'') : Stirs host (more ++ bs) m m''

theorem BoundAs.stirs (hm : m.BoundAs bs) (hstirs : Stirs host more m m') :
    m'.BoundAs (more ++ bs) := by
  induction hstirs generalizing bs with
  | aside hheap hglobals => exact hm.aside hheap hglobals
  | alloc m o => exact hm.alloc o
  | intern m text => exact hm.intern text
  | update m r g => exact hm.update r g
  | native hasked => exact hm.asked hasked
  | trans _ _ ih ih' =>
    rw [List.append_assoc]
    exact ih' (ih hm)

end Machine

/-- The natives of a host make requests and collect, and do nothing else. -/
def Host.Serves (host : Host) : Prop :=
  ∀ name receiver args (m : Machine), ∃ bs, m.Asked bs (host name receiver args m).2

namespace Machine

variable {host : Host} {m m' : Machine} {bs : GlobalRecord} {f : Frame} {rest : List Frame}
  {name : Value}

instance tolerant_stirs (host : Host) : Tolerant fun m m' => ∃ bs, Stirs host bs m m' where
  trans := fun ⟨_, h⟩ ⟨_, h'⟩ => ⟨_, h.trans h'⟩
  aside hheap hglobals := ⟨_, .aside hheap hglobals⟩
  alloc m o := ⟨_, .alloc m o⟩
  intern m text := ⟨_, .intern m text⟩
  update m r g := ⟨_, .update m r g⟩

/-- An activity that binds no global itself adds to the record what natives bind. -/
theorem exists_stirs (hhost : host.Serves) (a : Activity)
    (hop : a = .instruction → ∀ op ∈ globalOps, m.opcode? ≠ some op) :
    ∃ bs, Stirs host bs m (a.perform host m) := by
  have hwithin : host.Within fun m m' => ∃ bs, Stirs host bs m m' := by
    refine ⟨fun name receiver args m => ?_⟩
    obtain ⟨bs, hasked⟩ := hhost name receiver args m
    exact ⟨bs, .native hasked⟩
  exact tolerates_activity (R := fun m m' => ∃ bs, Stirs host bs m m') a hop

/-! Instructions that bind a global. -/

/-- What binding a name to the value on top binds. -/
def defineWork (m : Machine) (name : Value) : GlobalRecord :=
  ((m.top? 0).map (m.keyBindings name)).getD []

/-- What assigning the value on top to a name binds: nothing if a name that is not bound is an
error. -/
def assignWork (m : Machine) (name : Value) : GlobalRecord :=
  if m.settings.strictGlobals && (m.globals.get? m.heap.pool name).isNone then []
  else m.defineWork name

/-- What the next instruction binds. -/
def globalWork (m : Machine) : GlobalRecord :=
  match m.frames.head?, m.opcode? with
  | some f, some .globalDefine => ((f.proto.blob.constantAt? (f.ip + 1)).map m.defineWork).getD []
  | some f, some .globalSet => ((f.proto.blob.constantAt? (f.ip + 1)).map m.assignWork).getD []
  | _, _ => []

/-- An operation that goes on with the run adds what it binds to the record. -/
def Records (m : Machine) (bs : GlobalRecord) (x : Exec Unit) : Prop :=
  (final (throwing none (proceed x) m)).BoundAs bs

theorem records_of_ok {x : Exec Unit} (hx : x m = .ok () m') (hm : m'.BoundAs bs) :
    m.Records bs x := by
  have hproceed : proceed x m = .ok none m' := bind_of_ok hx _
  unfold Records throwing
  rw [hproceed]
  exact hm

theorem BoundAs.of_keeps {x : Exec Unit} (hm : m.BoundAs bs) (hx : ConfinedAt KeepsBindings m x) :
    m.Records bs x := by
  have hproceed : ConfinedAt KeepsBindings m (proceed x) := hx.bind fun _ => confined_pure none
  exact ConfinedAt.throwing hproceed none bs hm

/-- An action that fails at once keeps the record. -/
theorem BoundAs.of_error {α : Type} {x : Exec α} {s : Signal} (hm : m.BoundAs bs)
    (hx : x m = .error s m') (hheap : m'.heap = m.heap) (hglobals : m'.globals = m.globals)
    (g : α → Exec Unit) : m.Records bs (x >>= g) := by
  refine hm.of_keeps ?_
  unfold ConfinedAt
  rw [bind_of_error hx]
  exact tolerant_keepsBindings.aside hheap hglobals

theorem BoundAs.defineNamed (hm : m.BoundAs bs) (hname : m.heap.pool.Holds name) :
    m.Records (m.defineWork name ++ bs) (defineNamed name) := by
  unfold defineWork
  rw [top?_zero]
  cases hback : m.stack.back? with
  | some v =>
    let popped : Machine := { m with stack := m.stack.pop }
    have hpop : pop m = .ok v popped := by
      unfold pop
      rw [get_bind, hback]
      rfl
    have hpopped : popped.BoundAs bs := hm.aside rfl rfl
    refine records_of_ok ?_ (hpopped.set hname v)
    unfold Machine.defineNamed
    rw [bind_of_ok hpop]
    rfl
  | none =>
    have hpop : pop m = .error (.fault (.internal .stackUnderflow)) m := by
      unfold pop
      rw [get_bind, hback]
      rfl
    exact hm.of_error hpop rfl rfl _

theorem BoundAs.setNamed (hm : m.BoundAs bs) (hname : m.heap.pool.Holds name) :
    m.Records (m.assignWork name ++ bs) (setNamed name) := by
  have hpeek := peek_eq m 0
  unfold assignWork defineWork
  cases htop : m.top? 0 with
  | some v =>
    rw [htop] at hpeek
    split
    · next hstrict =>
      refine hm.of_keeps ?_
      unfold ConfinedAt Machine.setNamed
      rw [bind_of_ok hpeek, get_bind, if_pos hstrict]
      exact (confined_read fun q => confined_misuse _ :
        Confined KeepsBindings (undefinedGlobal name : Exec Unit)) m
    · next hstrict =>
      refine records_of_ok ?_ (hm.set hname v)
      unfold Machine.setNamed
      rw [bind_of_ok hpeek, get_bind, if_neg hstrict]
      rfl
  | none =>
    rw [htop] at hpeek
    have hnothing : (if m.settings.strictGlobals && (m.globals.get? m.heap.pool name).isNone then
        ([] : GlobalRecord) else ((none : Option Value).map (m.keyBindings name)).getD []) = [] :=
      ite_self []
    rw [hnothing]
    exact hm.of_error hpeek rfl rfl _

/-- What is read behind the operation decides what is bound. -/
theorem BoundAs.instruction (hm : m.BoundAs bs) (hframes : m.frames = f :: rest) {op : Opcode}
    (hop : m.opcode? = some op) {g : Value → Exec Unit}
    (hexecute : execute host f.ip op = proceed (fetchConstant >>= g)) (work : Value → GlobalRecord)
    (hg : ∀ name, f.proto.blob.constantAt? (f.ip + 1) = some name →
      (m.atOffset (f.ip + 3)).Records (work name ++ bs) (g name)) :
    (final (instruction host m)).BoundAs
      (((f.proto.blob.constantAt? (f.ip + 1)).map work).getD [] ++ bs) := by
  let behind : Machine := m.atOffset (f.ip + 1)
  rw [instruction_eq hframes hop, hexecute]
  rcases reads_fetchConstant behind _ rest (frames_atOffset hframes _) with
    ⟨name, hname, hok⟩ | ⟨hnone, ip, offset, d, herror⟩
  · have hwhole : throwing none (proceed (fetchConstant >>= g)) behind =
        throwing none (proceed (g name)) (m.atOffset (f.ip + 3)) := by
      rw [atOffset_atOffset] at hok
      unfold throwing
      rw [proceed_bind hok]
    rw [hwhole, hname]
    exact hg name hname
  · have hbehind : behind.BoundAs bs := hm.aside rfl rfl
    rw [hnone]
    exact hbehind.of_error herror rfl rfl g

/-- An instruction that binds a global adds to the record what could be read off before. -/
theorem BoundAs.bindsGlobal (hm : m.BoundAs bs) (hsound : m.Sound) {op : Opcode}
    (hop : m.opcode? = some op) (hmem : op ∈ globalOps) :
    (final (Machine.instruction host m)).BoundAs (m.globalWork ++ bs) := by
  obtain ⟨f, rest, hframes⟩ := exists_frame_of_opcode hop
  have hframe : f ∈ m.frames := hframes ▸ List.mem_cons_self
  have hholds {name : Value} (hname : f.proto.blob.constantAt? (f.ip + 1) = some name) :
      m.heap.pool.Holds name :=
    hsound.holds fun r hr => .constant hframe (mem_of_constantAt? hname) hr
  have hmoved : (m.atOffset (f.ip + 3)).BoundAs bs := hm.aside rfl rfl
  unfold globalWork
  rw [hframes, hop, List.head?_cons]
  cases op with
  | globalDefine =>
    exact hm.instruction hframes hop rfl m.defineWork fun name hname =>
      hmoved.defineNamed (hholds hname)
  | globalSet =>
    exact hm.instruction hframes hop rfl m.assignWork fun name hname =>
      hmoved.setNamed (hholds hname)
  | _ => simp [globalOps] at hmem

end Machine

end ScriptMachine
