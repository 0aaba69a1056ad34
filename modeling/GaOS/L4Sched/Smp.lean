import GaOS.Core.DList
import GaOS.Core.LTS
import GaOS.Core.Spinlock
import GaOS.Core.Words
import Mathlib.Algebra.BigOperators.Group.Finset.Basic
import Mathlib.Algebra.Order.BigOperators.Group.Finset
import Mathlib.Logic.Function.Basic

/-!
# Bringing up the processors

Model of kernel/src/arch/x86_64/smp/smp.c with the part of `install_context` that the
processors share. The bootstrap processor wakes the others one by one, each with
`arch_mp_bootstrap_lock` taken by the one and cleared by the other; the woken ones wait
for `arch_mp_enable_scheduler_lock`, which is held from the start until init is loaded;
then they install their contexts at the same time, add themselves to `arch_complete`,
and the bootstrap processor waits for all of them before it runs its first task.

Processors are known by their LAPIC ids and a context by the number of its allocation.
Every access to a variable that two processors use is one step of its own, so
`arch_complete++` and the two updates of the chain of contexts are not atomic. A
processor that spins has no step until what it waits for has happened.

`create` and `tick` are the steps of a kernel that is up: a task creates another one,
and the timer makes the queue of a processor go round. A queue is the list of its tasks
from `head` on (`GaOS.L4.RoundRobin` has the links), and the step of the timer may pop
any number of them, since this model does not have what makes a task runnable. Left
out: the set-up of a processor that no other one sees, log lines, the page allocator.
-/
namespace GaOS.L4.Smp

/-! ## Data -/

/-- What the boot loader reports: every processor once, the bootstrap processor among them. -/
structure Machine where
  lapicIds : List Nat
  bspLapicId : Nat
  nodup : lapicIds.Nodup
  bsp_mem : bspLapicId ∈ lapicIds
  small : lapicIds.length < 2 ^ 64

inductive Entry where
  | idle (cpu : Nat)
  | task (n : Nat)
  deriving DecidableEq

structure Context where
  cpuId : Nat
  next : Option Nat := none
  previous : Option Nat := none
  queue : List Entry := []
  deriving DecidableEq

/-- The places of `install_context`; `c` is `new_context`.
mirrors kernel/src/schedulers/task/round_robin/round_robin.c:153-198 -/
inductive Install where
  | allocate
  | lock (c : Nat)
  | link (c : Nat)
  | publish (c : Nat)
  | unlock (c : Nat)
  | attach (c : Nat)
  | idle (c : Nat)
  deriving DecidableEq

/-- The places of the bootstrap processor; `i` is the index of the loop.
mirrors kernel/src/arch/x86_64/smp/smp.c:51-86 and kernel/src/main.c:52-76 -/
inductive Bsp where
  | bootstrap
  | scan (i : Nat)
  | acquire (i : Nat)
  | wake (i : Nat)
  | await (i : Nat)
  | online
  | install (place : Install)
  | load
  | release
  | spin
  | enable
  | running (e : Entry)
  deriving DecidableEq

/-- The places of another processor; `n` is the value that it read from `arch_complete`.
mirrors kernel/src/arch/x86_64/smp/smp.c:23-49 -/
inductive Ap where
  | off
  | boot
  | wait
  | install (place : Install)
  | count
  | read
  | write (n : Nat)
  | finish
  | enable
  | running (e : Entry)
  deriving DecidableEq

structure State where
  bsp : Bsp := .bootstrap
  ap : Nat → Ap := fun _ => .off
  bootstrapLock : Bool := false
  enableLock : Bool := false
  completionLock : Bool := false
  lastContextLock : Bool := false
  complete : Nat := 0
  processorCount : Nat := 0
  apsOnline : Bool := false
  contexts : List Context := []
  lastContext : Option Nat := none
  /-- the context that each processor finds in its own area -/
  own : Nat → Option Nat := fun _ => none
  lastId : Nat := 0

/-! ## The code -/

def State.modifyContext (s : State) (c : Nat) (f : Context → Context) : State :=
  { s with contexts := s.contexts.modify c f }

/-- Where `install_context` goes on, `none` at its end; no answer while it spins.
mirrors kernel/src/schedulers/task/round_robin/round_robin.c:153-198 -/
def installStep (cpu : Nat) (s : State) : Install → Option (Option Install × State)
  | .allocate => some (some (.lock s.contexts.length),
      { s with contexts := s.contexts ++ [{ cpuId := cpu }] })
  | .lock c =>
    if s.lastContextLock then none else some (some (.link c), { s with lastContextLock := true })
  | .link c => some (some (.publish c), match s.lastContext with
    | none => s
    | some last => (s.modifyContext last fun x => { x with next := some c }).modifyContext c
        fun x => { x with previous := some last })
  | .publish c => some (some (.unlock c), { s with lastContext := some c })
  | .unlock c => some (some (.attach c), { s with lastContextLock := false })
  | .attach c => some (some (.idle c), { s with own := Function.update s.own cpu (some c) })
  | .idle c =>
    some (none, s.modifyContext c fun x => { x with queue := x.queue ++ [.idle cpu] })

/-- A pop from a queue of several tasks puts the first one behind the others; `none` is
the panic on an empty queue.
mirrors kernel/src/schedulers/task/round_robin/round_robin.c:44-66 -/
def popFromQueue : List Entry → Option (Entry × List Entry)
  | [] => none
  | e :: q => some (e, q ++ [e])

/-- A pop from the queue of a processor's own context. -/
def popOwn (cpu : Nat) (s : State) : Option (Entry × State) := do
  let c ← s.own cpu
  let context ← s.contexts[c]?
  let (e, queue) ← popFromQueue context.queue
  return (e, s.modifyContext c fun x => { x with queue := queue })

/-- mirrors kernel/src/arch/x86_64/smp/smp.c:51-86, kernel/src/main.c:52-76 and
kernel/src/schedulers/task/round_robin/round_robin.c:308-316 -/
def bspStep (m : Machine) (s : State) : Option State :=
  match s.bsp with
  | .bootstrap =>
    if s.enableLock then none
    else some { s with enableLock := true, processorCount := m.lapicIds.length, bsp := .scan 0 }
  | .scan i =>
    if i < s.processorCount then
      match m.lapicIds[i]? with
      | none => none
      | some cpu =>
        if cpu = m.bspLapicId then some { s with bsp := .scan (i + 1) }
        else some { s with bsp := .acquire i }
    else some { s with bsp := .online }
  | .acquire i =>
    if s.bootstrapLock then none else some { s with bootstrapLock := true, bsp := .wake i }
  | .wake i =>
    match m.lapicIds[i]? with
    | none => none
    | some cpu => some { s with ap := Function.update s.ap cpu .boot, bsp := .await i }
  | .await i => if s.bootstrapLock then none else some { s with bsp := .scan (i + 1) }
  | .online => some { s with apsOnline := s.processorCount > 1, bsp := .install .allocate }
  | .install place => (installStep m.bspLapicId s place).map fun (next, s) =>
      { s with bsp := next.elim .load .install }
  | .load => some { s with bsp := .release }
  | .release => some { s with enableLock := false, bsp := .spin }
  | .spin =>
    if s.complete = sub64 s.processorCount 1 then some { s with bsp := .enable } else none
  | .enable => (popOwn m.bspLapicId s).map fun (e, s) => { s with bsp := .running e }
  | .running _ => none

def State.setAp (s : State) (cpu : Nat) (place : Ap) : State :=
  { s with ap := Function.update s.ap cpu place }

/-- mirrors kernel/src/arch/x86_64/smp/smp.c:23-49 and
kernel/src/schedulers/task/round_robin/round_robin.c:308-316 -/
def apStep (cpu : Nat) (s : State) : Option State :=
  match s.ap cpu with
  | .off => none
  | .boot => some { s.setAp cpu .wait with bootstrapLock := false }
  | .wait => if s.enableLock then none else some (s.setAp cpu (.install .allocate))
  | .install place => (installStep cpu s place).map fun (next, s) =>
      s.setAp cpu (next.elim .count .install)
  | .count =>
    if s.completionLock then none else some { s.setAp cpu .read with completionLock := true }
  | .read => some (s.setAp cpu (.write s.complete))
  | .write n => some { s.setAp cpu .finish with complete := add64 n 1 }
  | .finish => some { s.setAp cpu .enable with completionLock := false }
  | .enable => (popOwn cpu s).map fun (e, s) => s.setAp cpu (.running e)
  | .running _ => none

def run (m : Machine) (cpu : Nat) (s : State) : Option State :=
  if cpu = m.bspLapicId then bspStep m s else apStep cpu s

/-- The contexts from `last_context` on, at most as many as the first argument. -/
def chainFrom (contexts : List Context) : Nat → Option Nat → List Nat
  | _, none => []
  | 0, some _ => []
  | n + 1, some c => c :: chainFrom contexts n (contexts[c]?.bind Context.previous)

/-- mirrors kernel/src/schedulers/task/round_robin/round_robin.c:259-272 -/
def leastBusy (contexts : List Context) (own : Nat) (chain : List Nat) : Nat :=
  (chain.foldl
    (fun (min, free) c =>
      let count := (contexts[c]?.map fun x => x.queue.length).getD 0
      if count < min then (count, c) else (min, free))
    (2 ^ 64 - 1, own)).2

def Bsp.current : Bsp → Option Entry
  | .running e => some e
  | _ => none

def Ap.current : Ap → Option Entry
  | .running e => some e
  | _ => none

/-- The entry that a processor goes on with, once its scheduler is enabled. -/
def State.current (m : Machine) (s : State) (cpu : Nat) : Option Entry :=
  if cpu = m.bspLapicId then s.bsp.current else (s.ap cpu).current

def State.setCurrent (m : Machine) (s : State) (cpu : Nat) (e : Entry) : State :=
  if cpu = m.bspLapicId then { s with bsp := .running e } else s.setAp cpu (.running e)

/-- Tasks are created while init is loaded, and by tasks. -/
def State.creates (m : Machine) (s : State) (cpu : Nat) : Bool :=
  (cpu == m.bspLapicId && s.bsp == .load) ||
    match s.current m cpu with
    | some (.task _) => true
    | _ => false

/-- The context that the task is put in comes first.
mirrors kernel/src/main.c:68-73 and
kernel/src/schedulers/task/round_robin/round_robin.c:249-281 -/
def create (m : Machine) (cpu : Nat) (s : State) : Option (Nat × State) :=
  if s.creates m cpu then do
    let _ ← s.lastContext
    let own ← s.own cpu
    let free := leastBusy s.contexts own (chainFrom s.contexts s.contexts.length s.lastContext)
    return (free, { s.modifyContext free fun x =>
      { x with queue := x.queue ++ [.task (s.lastId + 1)] } with lastId := s.lastId + 1 })
  else none

/-- `n + 1` pops of the selection loop, the last one is switched to. -/
def pops (cpu : Nat) : Nat → State → Option (Entry × State)
  | 0, s => popOwn cpu s
  | n + 1, s => do
    let (_, s) ← popOwn cpu s
    pops cpu n s

/-- mirrors kernel/src/schedulers/task/round_robin/round_robin.c:206-232 -/
def tick (m : Machine) (cpu n : Nat) (s : State) : Option State :=
  if (s.current m cpu).isSome then
    (pops cpu n s).map fun (e, s) => s.setCurrent m cpu e
  else none

/-! ## The transition system -/

inductive Label where
  | run (cpu : Nat)
  | create (cpu free : Nat)
  | tick (cpu n : Nat)

def smpLTS (m : Machine) : LTS State Label where
  init s := s = {}
  step s l t := match l with
    | .run cpu => run m cpu s = some t
    | .create cpu free => create m cpu s = some (free, t)
    | .tick cpu n => tick m cpu n s = some t

end GaOS.L4.Smp
