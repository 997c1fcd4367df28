import Distcc.Base.Heap
import Distcc.Stats.Total
import Distcc.Zeroconf.Lines

/-!
# The zeroconf daemon

Model of the callbacks of `src/zeroconf.c`. Avahi tells the daemon which services there are,
on every interface and for every protocol. For each of them the daemon has a host in a linked
list, and a resolver that is to find out its address. When it is found, or when a service has
gone, the hosts that are resolved are written to a file.

A service that can be reached in several ways is announced several times, under one name.
Before the file is written, `remove_duplicate_services` leaves one host for each name.
-/

namespace Distcc.Zeroconf

open CString Memory

/-! ### Data -/

/-- What a service is announced with. -/
structure ServiceKey where
  interface : ℤ
  protocol : ℤ
  name : CString
  domain : CString
  deriving DecidableEq, Repr

/-- `struct host` -/
structure Host where
  interface : ℤ
  protocol : ℤ
  service : CString
  domain : CString
  /-- `address` and `port`, if they were written. -/
  address : Option (AvahiAddress × UInt16) := none
  nCpus : ℤ := 1
  /-- Is `resolver` not `NULL`? -/
  resolver : Bool := true
  deriving DecidableEq

/-- `struct daemon_data`, the file, and what Avahi knows. -/
structure DaemonData where
  hosts : Option ℕ := none
  /-- What is in the file. -/
  file : CString := []
  /-- The hosts of the resolvers that are open. -/
  resolvers : List ℕ := []
  deriving DecidableEq, Repr

/-- The memory of the daemon. -/
abbrev DaemonMemory := Memory Host DaemonData

/-- What the functions on the file do. -/
structure WriteIo where
  locks : Bool := true
  seeks : Bool := true
  truncates : Bool := true
  /-- Does `dcc_writex` succeed for this line? -/
  writes : ℕ → Bool := fun _ => true

/-- The file is opened for writing, so that `remove_duplicate_services` is called. -/
def WriteIo.Opens (io : WriteIo) : Prop :=
  io.locks = true ∧ io.seeks = true ∧ io.truncates = true
deriving Decidable

/-- Entries of a TXT record, as `avahi_string_list_get_pair` gives them: an error, or a key and
a value, which is `NULL` if there is no `=`. -/
abbrev Txt := List (Option (CString × Option CString))

/-- What Avahi tells the daemon. -/
inductive Event
  /-- `AVAHI_BROWSER_NEW`. Can a resolver be created? -/
  | new (key : ServiceKey) (created : Bool)
  /-- `AVAHI_BROWSER_REMOVE` -/
  | remove (key : ServiceKey) (io : WriteIo)
  /-- `AVAHI_RESOLVER_FOUND`, for the resolver of this host. -/
  | found (host : ℕ) (address : AvahiAddress) (port : UInt16) (txt : Txt) (io : WriteIo)
  /-- `AVAHI_RESOLVER_FAILURE` -/
  | failure (host : ℕ)

/-- How `write_hosts` goes, if it is called. -/
def Event.io : Event → Option WriteIo
  | .new .. => none
  | .remove _ io => some io
  | .found _ _ _ _ io => some io
  | .failure _ => none

/-! ### The functions -/

section Functions

variable (avahi : Avahi) (nSlots : ℤ)

/-- `free_host` -/
def freeHost (h : ℕ) : Prog DaemonMemory Fault Unit := do
  let node ← load (some h)
  if node.data.resolver then assign fun v => { v with resolvers := v.resolvers.erase h }
  free (some h)

/-- A turn of the inner loop of `remove_duplicate_services`, with `host2` and `prev`. -/
def duplicateTurn (service : CString) :
    Option ℕ × ℕ → Prog DaemonMemory Fault (Option ℕ × ℕ ⊕ Unit)
  | (none, _) => pure (.inr ())
  | (some host2, prev) => do
    let node ← load (some host2)
    if service = node.data.service then do
      store (some prev) fun n => { n with next := node.next }
      freeHost host2
      let prevNode ← load (some prev)
      pure (.inl (prevNode.next, prev))
    else pure (.inl (node.next, host2))

/-- A turn of the outer loop, with `host1`. -/
def duplicatesTurn (turns : ℕ) : Option ℕ → Prog DaemonMemory Fault (Option ℕ ⊕ Unit)
  | none => pure (.inr ())
  | some host1 => do
    let node ← load (some host1)
    Prog.loop (duplicateTurn node.data.service) turns (node.next, host1)
    let node ← load (some host1)
    pure (.inl node.next)

/-- `remove_duplicate_services` -/
def removeDuplicateServices : Prog DaemonMemory Fault Unit := do
  let m ← Prog.get
  Prog.loop (duplicatesTurn (m.brk + 1)) (m.brk + 1) m.vars.hosts

/-- A turn of the loop of `write_hosts`, with `h` and the number of the line. -/
def writeTurn (io : WriteIo) :
    Option ℕ × ℕ → Prog DaemonMemory Fault (Option ℕ × ℕ ⊕ Unit)
  | (none, _) => pure (.inr ())
  | (some h, line) => do
    let node ← load (some h)
    if node.data.resolver then pure (.inl (node.next, line))
    else
      match node.data.address with
      | none => Prog.fail .unset
      | some (address, port) =>
        if IsInt (nSlots * node.data.nCpus) then
          if io.writes line then do
            assign fun v =>
              { v with file := v.file ++ hostLine avahi nSlots ⟨address, port, node.data.nCpus⟩ }
            pure (.inl (node.next, line + 1))
          else pure (.inr ())
        else Prog.fail .overflow

/-- `write_hosts` -/
def writeHosts (io : WriteIo) : Prog DaemonMemory Fault Unit := do
  if io.Opens then do
    assign fun v => { v with file := [] }
    removeDuplicateServices
    let m ← Prog.get
    Prog.loop (writeTurn avahi nSlots io) (m.brk + 1) (m.vars.hosts, 0)
  else pure ()

/-- Is this host for the service? -/
def Host.isFor (key : ServiceKey) (h : Host) : Bool :=
  h.interface = key.interface && h.protocol = key.protocol && h.service = key.name &&
    avahi.domainEqual h.domain key.domain

/-- A turn of the loop of `remove_service`, with `h` and `p`. -/
def removeTurn (key : ServiceKey) :
    Option ℕ × Option ℕ → Prog DaemonMemory Fault (Option ℕ × Option ℕ ⊕ Unit)
  | (none, _) => pure (.inr ())
  | (some h, p) => do
    let node ← load (some h)
    if node.data.isFor avahi key then do
      match p with
      | some p => store (some p) fun n => { n with next := node.next }
      | none => assign fun v => { v with hosts := node.next }
      freeHost h
      pure (.inr ())
    else pure (.inl (node.next, some h))

/-- `remove_service` -/
def removeService (key : ServiceKey) : Prog DaemonMemory Fault Unit := do
  let m ← Prog.get
  Prog.loop (removeTurn avahi key) (m.brk + 1) (m.vars.hosts, none)

/-- The number of CPUs, after another entry of the TXT record. -/
def cpusAfter (nCpus : ℤ) : Option (CString × Option CString) → Except Fault ℤ
  | none => .ok nCpus
  | some (key, value) =>
    if key = lit "cpus" then
      match value with
      | none => .error .null
      | some value => .ok (if atoi value ≤ 0 then 1 else atoi value)
    else .ok nCpus

/-- `resolve_reply`, if the host was found. -/
def resolveFound (h : ℕ) (address : AvahiAddress) (port : UInt16) (txt : Txt) (io : WriteIo) :
    Prog DaemonMemory Fault Unit := do
  let node ← load (some h)
  let nCpus ← Prog.ofExcept (txt.foldlM cpusAfter node.data.nCpus)
  store (some h) fun n => { n with data := { n.data with nCpus, address := some (address, port) } }
  assign fun v => { v with resolvers := v.resolvers.erase h }
  store (some h) fun n => { n with data := { n.data with resolver := false } }
  writeHosts avahi nSlots io

/-- `browse_reply`, for a new service. -/
def browseNew (key : ServiceKey) (created : Bool) : Prog DaemonMemory Fault Unit := do
  let m ← Prog.get
  let h ← malloc ⟨{ interface := key.interface, protocol := key.protocol, service := key.name,
                    domain := key.domain }, m.vars.hosts⟩
  if created then assign fun v => { v with hosts := some h, resolvers := h :: v.resolvers }
  else free (some h)

/-- What the daemon does. -/
def handle : Event → Prog DaemonMemory Fault Unit
  | .new key created => browseNew key created
  | .remove key io => do
    removeService avahi key
    writeHosts avahi nSlots io
  | .found h address port txt io => resolveFound avahi nSlots h address port txt io
  | .failure h => freeHost h

end Functions

/-! ### What is announced -/

/-- A service that is announced, on one interface and for one protocol. -/
structure Instance where
  key : ServiceKey
  /-- The host that the daemon has for it. -/
  host : Option ℕ
  /-- What was found out about it. -/
  resolved : Option Resolution
  deriving DecidableEq

/-- The instances that are announced, the last one first, and how many there were. -/
structure Announced where
  instances : List Instance := []
  count : ℕ := 0
  deriving DecidableEq

/-- The daemon has hosts of different names only: the first one of each name is kept. -/
def keepFirst (seen : List CString) : List Instance → List Instance
  | [] => []
  | i :: l =>
    if i.host.isNone then i :: keepFirst seen l
    else if i.key.name ∈ seen then { i with host := none } :: keepFirst seen l
    else i :: keepFirst (i.key.name :: seen) l

def Announced.withoutDuplicates (w : Announced) : Announced := ⟨keepFirst [] w.instances, w.count⟩

/-- What `write_hosts` leaves. -/
def Announced.written (w : Announced) (io : WriteIo) : Announced :=
  if io.Opens then w.withoutDuplicates else w

section Announced

variable (avahi : Avahi)

/-- Is this the instance for the service? -/
def Instance.isFor (key : ServiceKey) (i : Instance) : Bool :=
  i.key.interface = key.interface && i.key.protocol = key.protocol && i.key.name = key.name &&
    avahi.domainEqual i.key.domain key.domain

/-- The number of CPUs that a TXT record has. -/
def cpusOf (txt : Txt) : ℤ :=
  match txt.foldlM cpusAfter 1 with
  | .ok n => n
  | .error _ => 1

/-- An instance is resolved, if it is that of the host. -/
def Instance.resolve (host : ℕ) (r : Resolution) (i : Instance) : Instance :=
  if i.host = some host then { i with resolved := some r } else i

/-- **What Avahi has told** with an event. -/
def Announced.told (w : Announced) : Event → Announced
  | .new key created =>
    ⟨⟨key, if created then some w.count else none, none⟩ :: w.instances, w.count + 1⟩
  | .remove key _ => ⟨w.instances.filter fun i => !i.isFor avahi key, w.count⟩
  | .found host address port txt _ =>
    ⟨w.instances.map (Instance.resolve host ⟨address, port, cpusOf txt⟩), w.count⟩
  | .failure _ => w

/-- What is announced after an event, and the hosts that there are for it. -/
def Announced.after (w : Announced) (e : Event) : Announced :=
  match e.io with
  | none => w.told avahi e
  | some io => (w.told avahi e).written io

/-- **The events that Avahi may deliver**: a service is announced that was not, one has gone
that was announced, and a resolver answers that is open. -/
def Deliverable (w : Announced) (m : DaemonMemory) : Event → Prop
  | .new key _ => ∀ i ∈ w.instances, i.isFor avahi key = false
  | .remove key _ => ∃ i ∈ w.instances, i.isFor avahi key = true
  | .found host .. => host ∈ m.vars.resolvers
  | .failure host => host ∈ m.vars.resolvers

/-- The memory at the beginning. -/
def DaemonMemory.start : DaemonMemory := ⟨fun _ => none, 0, {}⟩

/-- **The runs** of the daemon whose steps meet a condition. -/
inductive Reaches (nSlots : ℤ) (C : Announced → Event → Prop) : DaemonMemory → Announced → Prop
  | start : Reaches nSlots C .start {}
  | step {m m' : DaemonMemory} {w : Announced} {e : Event} (h : Reaches nSlots C m w)
      (hdeliver : Deliverable avahi w m e) (hcond : C w e)
      (hhandle : handle avahi nSlots e m = some (.ok (), m')) :
      Reaches nSlots C m' (w.after avahi e)

/-! ### What is asked for -/

/-- All hosts of the list are allocated. -/
def AllAllocated (m : DaemonMemory) : Prop := ∃ l, Linked m.nodes m.vars.hosts l

/-- The file is written. -/
def Event.Writes (e : Event) : Prop :=
  ∃ io ∈ e.io, io.Opens ∧ ∀ line, io.writes line = true

/-- **There is one line for every service that is announced and resolved.** -/
def FileExact (nSlots : ℤ) (w : Announced) (file : CString) : Prop :=
  ∃ lines : List (CString × Resolution), file = hostsText avahi nSlots (lines.map Prod.snd) ∧
    (lines.map Prod.fst).Nodup ∧
    (∀ line ∈ lines, IsInt (nSlots * line.2.nCpus) ∧
      ∃ i ∈ w.instances, i.key.name = line.1 ∧ i.resolved = some line.2) ∧
    ∀ i ∈ w.instances, i.resolved.isSome → i.key.name ∈ lines.map Prod.fst

/-- **An event is handled as it should be**: there is no fault, no host of the list is freed, and
if the file is written, it has the services. -/
def HandledWell (nSlots : ℤ) (m : DaemonMemory) (w : Announced) (e : Event) : Prop :=
  ∃ m', handle avahi nSlots e m = some (.ok (), m') ∧ AllAllocated m' ∧
    (e.Writes → FileExact avahi nSlots (w.after avahi e) m'.vars.file)

/-! ### The condition -/

/-- The newest host for a service. -/
def Announced.newest (w : Announced) (name : CString) : Option Instance :=
  w.instances.find? fun i => i.host.isSome && i.key.name = name

/-- **The newest host is resolved** for each service that is. -/
def Announced.NewestResolved (w : Announced) : Prop :=
  ∀ i ∈ w.instances, i.resolved.isSome → ((w.newest i.key.name).bind Instance.resolved).isSome
deriving Decidable

/-- The names and addresses of the hosts that are resolved. -/
def Announced.lines (w : Announced) : List (CString × Resolution) :=
  (w.instances.filter fun i => i.host.isSome).filterMap fun i =>
    i.resolved.map fun r => (i.key.name, r)

/-- The numbers of slots are not too large, as far as lines are written. -/
def SlotsWritable (nSlots : ℤ) (io : WriteIo) : ℕ → List Resolution → Prop
  | _, [] => True
  | line, r :: rs =>
    IsInt (nSlots * r.nCpus) ∧ (io.writes line = true → SlotsWritable nSlots io (line + 1) rs)

/-- What is asked for when the file is written. -/
def Announced.WrittenWell (nSlots : ℤ) (io : WriteIo) (w : Announced) : Prop :=
  io.Opens → SlotsWritable nSlots io 0 (w.withoutDuplicates.lines.map Prod.snd) ∧
    ((∀ line, io.writes line = true) → w.NewestResolved)

/-- **The condition**: no resolver fails, there is a value for the number of CPUs, and when the
file is written, the newest host of each service is the one that is resolved. -/
def Careful (nSlots : ℤ) (w : Announced) (e : Event) : Prop :=
  match e with
  | .new .. => True
  | .remove _ io => (w.told avahi e).WrittenWell nSlots io
  | .found _ _ _ txt io =>
    (∀ entry ∈ txt, entry ≠ some (lit "cpus", none)) ∧ (w.told avahi e).WrittenWell nSlots io
  | .failure _ => False

end Announced

end Distcc.Zeroconf
