import GaOS.L4Files.NodeSpec
import GaOS.L6Syscall.FileTableInv

/-!
# Descriptors and the nodes behind them

The system calls on descriptors over the file systems of `L4Files`. Runs are those
of `roomLTS` with reads, writes and seeks made explicit (`nodesLTS`). Other tasks
use the file systems too: they leave the nodes of this task and the pages of its
table alone, and add devices (`NodesKept`).

`NodesInv`: every open descriptor has a node of its own, which can be opened again
by its path.
-/
namespace GaOS.L6.FileTable

open GaOS.L1 GaOS.L1.PageAllocator GaOS.L4.RoundRobin
open GaOS.L4.Files (Mounted NameHeap FileState VfsNode Grown Reopens ReadsBack Opens Quiet Moves vfsOpen
  vfsClose vfsRead vfsWrite nodeLseek callLseek openIn_ok openIn_error vfsOpen_cases vfsClose_busy
  vfsRead_moves vfsWrite_moves nodeLseek_moves)

section
variable {σ η : Type} (P : PageStore σ) (B : Mounted) (H : NameHeap η)
  (text : Nat → World σ (FileState η) → List Nat)

/-- The VFS. `text` is the string at a pointer of the caller. When the allocator
panics nothing is opened. -/
def fileVfs : Vfs σ (FileState η) where
  openNode path oflag w :=
    if path = 0 then (.error (-ENOENT), w)
    else
      match vfsOpen B H.toBlockHeap (text path w) oflag w.files with
      | none => (.error 0, w)
      | some (answer, files) => (answer, { w with files := files })
  close a w := { w with files := vfsClose H.toBlockHeap a w.files }
  read a _ size w :=
    let (answer, files) := vfsRead a size w.files
    (answer, { w with files := files })
  write a _ size w :=
    let (answer, files) := vfsWrite a size w.files
    (answer, { w with files := files })
  lseek a offset whence w :=
    let (answer, files) := nodeLseek a offset whence w.files
    (answer, { w with files := files })

/-- `sys_lseek` with the call that it makes: `none` when that goes to address zero, where
`sysLseek` has an answer of 0.
mirrors kernel/src/syscalls/sys_lseek.c:10-31 -/
def sysLseekCall (fd : Nat) (offset whence : Int) (w : World σ (FileState η)) (caller : Task) :
    Option (Int × World σ (FileState η)) :=
  match checkFd w.machine.mem caller fd with
  | .error e => some (e, w)
  | .ok a => (callLseek a offset whence w.files).map fun (answer, files) =>
      (answer, { w with files := files })

inductive NodeEvent where
  /-- `sys_open` or `sys_close` -/
  | table (e : FdEvent)
  | read (fd buffer size : Nat) (answer : Int)
  | write (fd buffer size : Nat) (answer : Int)
  | lseek (fd : Nat) (offset whence answer : Int)
  | other

/-- The node and the path of a descriptor are blocks in use. -/
def Held (s : FileState η) (a : Nat) (node : VfsNode) : Prop :=
  s.nodes a = some node ∧ H.Busy s.heap a ∧ H.Busy s.heap node.pathBlock

/-- What the rest of the kernel leaves of the file systems, for the nodes in
`live`. -/
structure NodesKept (live : List Nat) (s s' : FileState η) : Prop where
  held : ∀ a ∈ live, ∀ node, Held H s a node → Held H s' a node
  grown : Grown s.devices s'.devices

/-- The pages of the table are not free. -/
def TableTaken (s : Process σ (FileState η)) : Prop :=
  ∀ k, k < s.table.pages → ¬P.Free s.world.machine.src (s.table.base + k * PAGE)

/-- Only the world changes. -/
def SameTable (s t : Process σ (FileState η)) : Prop :=
  t.caller = s.caller ∧ t.table = s.table ∧ t.opened = s.opened

def nodesLTS : LTS (Process σ (FileState η)) NodeEvent where
  init := (fdLTS P (fileVfs B H text)).init
  step s e t := match e with
    | .table e => e ≠ .other ∧ (roomLTS P (fileVfs B H text)).step s e t
    | .read fd buffer size answer => SameTable s t ∧
        sysRead P.toPageSource (fileVfs B H text) fd buffer size s.world s.caller =
          .ok (answer, t.world)
    | .write fd buffer size answer => SameTable s t ∧
        sysWrite P.toPageSource (fileVfs B H text) fd buffer size s.world s.caller =
          .ok (answer, t.world)
    | .lseek fd offset whence answer => SameTable s t ∧
        sysLseek (fileVfs B H text) fd offset whence s.world s.caller = .ok (answer, t.world)
    | .other => SameFds s.caller t.caller ∧ Keeps s.table s.world.machine t.world.machine ∧
        t.table = s.table ∧ t.opened = s.opened ∧ TableTaken P t ∧
        NodesKept H (s.opened.map Prod.snd) s.world.files t.world.files

/-- Two nodes have no block in common. -/
def Apart (a : Nat) (node : VfsNode) (a' : Nat) (node' : VfsNode) : Prop :=
  a ≠ a' ∧ node.pathBlock ≠ node'.pathBlock ∧ a ≠ node'.pathBlock ∧ a' ≠ node.pathBlock

structure NodesInv (s : Process σ (FileState η)) : Prop extends FdInv s where
  aligned : s.table.base % PAGE = 0
  table_taken : TableTaken P s
  live : ∀ e ∈ s.opened, ∃ node, Held H s.world.files e.2 node ∧
    Reopens B s.world.files.devices node ∧ node.pathBlock ≠ 0 ∧ e.2 ≠ node.pathBlock
  apart : ∀ e ∈ s.opened, ∀ e' ∈ s.opened, e ≠ e' → ∀ node node',
    s.world.files.nodes e.2 = some node → s.world.files.nodes e'.2 = some node' →
    Apart e.2 node e'.2 node'

end

variable {σ η : Type} {P : PageStore σ} {B : Mounted} {H : NameHeap η}
  {text : Nat → World σ (FileState η) → List Nat} {s t : Process σ (FileState η)}

/-! ## What the calls do to the file systems -/

theorem openNode_machine (path oflag : Nat) (w : World σ (FileState η)) :
    ((fileVfs B H text).openNode path oflag w).2.machine = w.machine := by
  unfold fileVfs
  simp only
  split
  · rfl
  · split <;> rfl

theorem openNode_ok {path oflag a : Nat} {w : World σ (FileState η)}
    (h : ((fileVfs B H text).openNode path oflag w).1 = .ok a) :
    ∃ node, Opens H w.files ((fileVfs B H text).openNode path oflag w).2.files a node ∧
      Reopens B ((fileVfs B H text).openNode path oflag w).2.files.devices node := by
  unfold fileVfs at h ⊢
  simp only at h ⊢
  split at h
  · cases h
  · rename_i hp
    rw [if_neg hp]
    split at h
    · cases h
    · rename_i answer files ho
      simp only at h
      subst h
      rcases vfsOpen_cases ho with ⟨e, he, -⟩ | ⟨fs, rest, ho'⟩
      · cases he
      · obtain ⟨node, hopens, hre, -⟩ := openIn_ok ho'
        exact ⟨node, hopens, hre⟩

theorem openNode_error {path oflag : Nat} {e : Int} {w : World σ (FileState η)}
    (h : ((fileVfs B H text).openNode path oflag w).1 = .error e) :
    Quiet H w.files ((fileVfs B H text).openNode path oflag w).2.files := by
  unfold fileVfs at h ⊢
  simp only at h ⊢
  split at h
  · rename_i hp
    rw [if_pos hp]
    exact Quiet.refl _
  · rename_i hp
    rw [if_neg hp]
    split at h
    · exact Quiet.refl _
    · rename_i answer files ho
      simp only at h
      subst h
      rcases vfsOpen_cases ho with ⟨e, -, rfl⟩ | ⟨fs, rest, ho'⟩
      · exact Quiet.refl _
      · exact openIn_error ho'

/-! ## The invariant -/

theorem NodesInv.node (hi : NodesInv P B H s) {e : Nat × Nat} (he : e ∈ s.opened) :
    ∃ node, s.world.files.nodes e.2 = some node := by
  obtain ⟨node, hh, -⟩ := hi.live e he
  exact ⟨node, hh.1⟩

/-- The invariant looks at the nodes that are open. -/
theorem NodesInv.kept (hi : NodesInv P B H s) (hfd : FdInv t) (ht : t.table = s.table)
    (ho : t.opened = s.opened) (htaken : TableTaken P t)
    (hk : NodesKept H (s.opened.map Prod.snd) s.world.files t.world.files) : NodesInv P B H t := by
  have hsame : ∀ e ∈ s.opened, t.world.files.nodes e.2 = s.world.files.nodes e.2 := by
    intro e he
    obtain ⟨node, hh, -⟩ := hi.live e he
    rw [hh.1]
    exact (hk.held _ (List.mem_map_of_mem he) node hh).1
  refine ⟨hfd, ht ▸ hi.aligned, htaken, fun e he => ?_, fun e he e' he' => ?_⟩
  · rw [ho] at he
    obtain ⟨node, hh, hre, hp⟩ := hi.live e he
    exact ⟨node, hk.held _ (List.mem_map_of_mem he) node hh, hre.grown hk.grown, hp⟩
  · rw [ho] at he he'
    rw [hsame e he, hsame e' he']
    exact hi.apart e he e' he'

theorem TableTaken.congr (h : TableTaken P s) (ht : t.table = s.table)
    (hm : t.world.machine.src = s.world.machine.src) : TableTaken P t := by
  intro k hk
  rw [ht] at hk ⊢
  rw [hm]
  exact h k hk

/-- A seek position is in none of the invariant. -/
theorem NodesInv.moved (hi : NodesInv P B H s) {a : Nat} (hsame : SameTable s t)
    (hm : t.world.machine = s.world.machine) (hmove : Moves a s.world.files t.world.files) :
    NodesInv P B H t := by
  obtain ⟨hc, ht, ho⟩ := hsame
  have hfd : FdInv t := hi.toFdInv.congr (hc ▸ ⟨rfl, rfl, rfl, rfl⟩) (fun x _ => by rw [hm]) ht ho
  have htaken : TableTaken P t := hi.table_taken.congr ht (by rw [hm])
  rcases hmove with he | ⟨node, seek, hn, he⟩
  · exact hi.kept hfd ht ho htaken (by rw [he]; exact ⟨fun _ _ _ hh => hh, Grown.refl _⟩)
  · have hset : t.world.files.nodes = Function.update s.world.files.nodes a
        (some { node with seekPosition := seek }) := by
      rw [he]
      rfl
    -- a node of the new state is one of the old, moved or not
    have hback : ∀ x node', t.world.files.nodes x = some node' → ∃ old,
        s.world.files.nodes x = some old ∧ old.pathBlock = node'.pathBlock := by
      intro x node' hx
      rw [hset] at hx
      by_cases hxa : x = a
      · rw [hxa, Function.update_self] at hx
        rw [← Option.some.inj hx, hxa]
        exact ⟨node, hn, rfl⟩
      · rw [Function.update_of_ne hxa] at hx
        exact ⟨node', hx, rfl⟩
    refine ⟨hfd, ht ▸ hi.aligned, htaken, fun e hmem => ?_,
      fun e hmem e' hmem' hne n n' hen hen' => ?_⟩
    · rw [ho] at hmem
      obtain ⟨node', hn', hre, hp⟩ := hi.live e hmem
      have hheap : t.world.files.heap = s.world.files.heap := by
        rw [he]
        rfl
      have hdevices : t.world.files.devices = s.world.files.devices := by
        rw [he]
        rfl
      rw [hdevices]
      by_cases hea : e.2 = a
      · have hnode : node = node' := Option.some.inj (hn.symm.trans (hea ▸ hn'.1))
        subst hnode
        refine ⟨{ node with seekPosition := seek }, ⟨?_, hheap ▸ hn'.2⟩, hre.move seek, hp⟩
        rw [hset, hea, Function.update_self]
      · refine ⟨node', ⟨?_, hheap ▸ hn'.2⟩, hre, hp⟩
        rw [hset, Function.update_of_ne hea]
        exact hn'.1
    · rw [ho] at hmem hmem'
      obtain ⟨old, hold, hpath⟩ := hback _ _ hen
      obtain ⟨old', hold', hpath'⟩ := hback _ _ hen'
      have := hi.apart e hmem e' hmem' hne old old' hold hold'
      rwa [Apart, hpath, hpath'] at this

theorem NodesInv.opened (hi : NodesInv P B H s) (hroom : Room s) {log : List Access} {fd a : Nat}
    (hs : (fdLTS P (fileVfs B H text)).step s (.opened log fd a) t) : NodesInv P B H t := by
  obtain ⟨-, -, hfd, -, ht, path, oflag, hok, hfiles, hsrc⟩ := hi.toFdInv.opened hroom hs
  obtain ⟨-, -, -, -, -, -, -, -, ho⟩ := hs
  obtain ⟨node, hopens, hre⟩ := openNode_ok hok
  rw [← hfiles] at hopens hre
  rw [openNode_machine] at hsrc
  obtain ⟨hfresh, hfreshPath, hapart⟩ := hopens.fresh
  -- the nodes that were open are not at the new address
  have hne : ∀ e ∈ s.opened, e.2 ≠ a := fun e he hc => by
    obtain ⟨node', hh, -⟩ := hi.live e he
    exact hfresh (hc ▸ hh.2.1)
  have hold : ∀ e ∈ s.opened, t.world.files.nodes e.2 = s.world.files.nodes e.2 := fun e he => by
    rw [hopens.nodes, Function.update_of_ne (hne e he)]
  have hnew : t.world.files.nodes a = some node := by rw [hopens.nodes, Function.update_self]
  -- nor are their paths in one of the new blocks
  have hold_apart : ∀ e ∈ s.opened, ∀ n, t.world.files.nodes e.2 = some n → Apart e.2 n a node := by
    intro e he n hn
    obtain ⟨node', hh, -⟩ := hi.live e he
    obtain rfl : node' = n := Option.some.inj (hh.1.symm.trans ((hold e he).symm.trans hn))
    exact ⟨hne e he, fun hc => hfreshPath (hc ▸ hh.2.2), fun hc => hfreshPath (hc ▸ hh.2.1),
      fun hc => hfresh (hc ▸ hh.2.2)⟩
  refine ⟨hfd, ht ▸ hi.aligned, hi.table_taken.congr ht hsrc, fun e he => ?_,
    fun e he e' he' hee n n' hn hn' => ?_⟩
  · rw [ho] at he
    rcases List.mem_cons.mp he with rfl | he
    · exact ⟨node, ⟨hnew, hopens.taken⟩, hre, hopens.pos.2, hapart⟩
    · obtain ⟨node', hh, hre', hp⟩ := hi.live e he
      exact ⟨node', ⟨(hold e he).trans hh.1, hopens.heap.busy _ hh.2.1,
        hopens.heap.busy _ hh.2.2⟩, hre'.grown hopens.grown, hp⟩
  · rw [ho] at he he'
    rcases List.mem_cons.mp he with rfl | he <;> rcases List.mem_cons.mp he' with rfl | he'
    · exact absurd rfl hee
    · obtain rfl : node = n := Option.some.inj (hnew.symm.trans hn)
      obtain ⟨h1, h2, h3, h4⟩ := hold_apart e' he' n' hn'
      exact ⟨h1.symm, h2.symm, h4, h3⟩
    · obtain rfl : node = n' := Option.some.inj (hnew.symm.trans hn')
      exact hold_apart e he n hn
    · rw [hold e he] at hn
      rw [hold e' he'] at hn'
      exact hi.apart e he e' he' hee n n' hn hn'

theorem NodesInv.quiet (hi : NodesInv P B H s) (hfd : FdInv t) (ht : t.table = s.table)
    (ho : t.opened = s.opened) (hm : t.world.machine = s.world.machine)
    (hq : Quiet H s.world.files t.world.files) : NodesInv P B H t :=
  hi.kept hfd ht ho (hi.table_taken.congr ht (by rw [hm]))
    ⟨fun _ _ _ hh => ⟨hq.nodes ▸ hh.1, hq.heap.busy _ hh.2.1, hq.heap.busy _ hh.2.2⟩, hq.grown⟩

theorem sysOpen_error {σ ρ : Type} {P : PageStore σ} {V : Vfs σ ρ} {rounds path oflag : Nat}
    {e : Int} {log : List Access} {w w' : World σ ρ} {caller caller' : Task}
    (h : sysOpen P V rounds path oflag w caller = some (.error e, log, w', caller')) :
    w' = w ∨ V.openNode path oflag w = (.error e, w') := by
  unfold sysOpen at h
  split at h
  · cases h
    exact .inl rfl
  · split at h
    · rename_i ho
      cases h
      exact .inr ho
    · simp only [Option.bind_eq_bind, Option.bind_eq_some_iff, Prod.exists] at h
      obtain ⟨_, _, _, _, -, he⟩ := h
      cases he

theorem NodesInv.refused (hi : NodesInv P B H s) {e : Int}
    (hs : (fdLTS P (fileVfs B H text)).step s (.refused e) t) : NodesInv P B H t := by
  have hfd := (hi.toFdInv.refused hs).1
  obtain ⟨rounds, path, oflag, hsys, -, ht, ho⟩ := hs
  rcases sysOpen_error hsys with hw | hw
  · exact hi.quiet hfd ht ho (by rw [hw]) (by rw [hw]; exact Quiet.refl _)
  · have hm : ((fileVfs B H text).openNode path oflag s.world).2.machine = s.world.machine :=
      openNode_machine path oflag s.world
    have hq : Quiet H s.world.files ((fileVfs B H text).openNode path oflag s.world).2.files :=
      openNode_error (congrArg Prod.fst hw)
    rw [hw] at hm hq
    exact hi.quiet hfd ht ho hm hq

theorem NodesInv.closed (hi : NodesInv P B H s) {fd : Nat}
    (hs : (fdLTS P (fileVfs B H text)).step s (.closed fd) t) : NodesInv P B H t := by
  have hfd := (hi.toFdInv.closed hs).1
  obtain ⟨hsys, -, ht, ho⟩ := hs
  unfold sysClose at hsys
  split at hsys
  · cases hsys
  · rename_i hc
    rw [not_or, Nat.not_le] at hc
    have hmem := (hi.slots fd _ hc.1 hc.2).mp rfl
    generalize slot s.world.machine.mem s.caller fd = a at hsys hmem
    have hw := (Prod.mk.inj (Except.ok.inj hsys)).1
    have hfiles : t.world.files = vfsClose H.toBlockHeap a s.world.files := by rw [← hw]; rfl
    have hsrc : t.world.machine.src = s.world.machine.src := by rw [← hw]; rfl
    have hsub : ∀ e ∈ t.opened, e ∈ s.opened ∧ e ≠ (fd, a) := by
      intro e he
      rw [ho, List.mem_filter, decide_eq_true_eq] at he
      exact ⟨he.1, fun heq => he.2 (by rw [heq])⟩
    obtain ⟨node, hheld, -, hpos, hne⟩ := hi.live (fd, a) hmem
    have hbusy := vfsClose_busy hheld.1 hheld.2 hpos hne
    have hnodes : ∀ x, x ≠ a → t.world.files.nodes x = s.world.files.nodes x := by
      intro x hx
      rw [hfiles, vfsClose, hheld.1]
      exact Function.update_of_ne hx ..
    have hdevices : t.world.files.devices = s.world.files.devices := by
      rw [hfiles, vfsClose, hheld.1]
      rfl
    -- another descriptor has another node
    have hother : ∀ e ∈ t.opened, e ∈ s.opened ∧ ∀ n, s.world.files.nodes e.2 = some n →
        Apart e.2 n a node := fun e he =>
      ⟨(hsub e he).1, fun n hn => hi.apart e (hsub e he).1 (fd, a) hmem (hsub e he).2 n node hn
        hheld.1⟩
    refine ⟨hfd, ht ▸ hi.aligned, hi.table_taken.congr ht hsrc, fun e he => ?_,
      fun e he e' he' hee n n' hn hn' => ?_⟩
    · obtain ⟨he, hapart⟩ := hother e he
      obtain ⟨n, hh, hre, hp⟩ := hi.live e he
      obtain ⟨h1, h2, h3, h4⟩ := hapart n hh.1
      refine ⟨n, ⟨(hnodes _ h1).trans hh.1, ?_, ?_⟩, hdevices ▸ hre, hp⟩
      · rw [hfiles, hbusy]
        exact ⟨h1, h3, hh.2.1⟩
      · rw [hfiles, hbusy]
        exact ⟨h4.symm, h2, hh.2.2⟩
    · obtain ⟨he, hapart⟩ := hother e he
      obtain ⟨he', hapart'⟩ := hother e' he'
      obtain ⟨m, hm⟩ := hi.node he
      obtain ⟨m', hm'⟩ := hi.node he'
      rw [hnodes _ (hapart m hm).1] at hn
      rw [hnodes _ (hapart' m' hm').1] at hn'
      exact hi.apart e he e' he' hee n n' hn hn'

/-- **Every open descriptor has a node of its own.** -/
theorem nodes_inductive (P : PageStore σ) (B : Mounted) (H : NameHeap η)
    (text : Nat → World σ (FileState η) → List Nat) :
    (nodesLTS P B H text).Inductive (NodesInv P B H) where
  init s hs := by
    have hfd : FdInv s := fdInv_init (V := fileVfs B H text) hs
    obtain ⟨m, name, id, stack, fds, simd, hp, -, ht, ho⟩ := hs
    obtain ⟨hg, -⟩ := Machine.pageAllocate_spec hp
    refine ⟨hfd, by rw [ht]; exact hg.aligned, fun k hk hf => ?_, by rw [ho]; nofun,
      by rw [ho]; nofun⟩
    rw [ht] at hk hf
    have := hg.taken _ hf
    simp only [PAGE] at *; omega
  step s e t hi hst := by
    cases e with
    | table e =>
      obtain ⟨hne, hst, hroom⟩ := hst
      cases e with
      | opened log fd a => exact hi.opened (hroom log fd a rfl) hst
      | refused e => exact hi.refused hst
      | closed fd => exact hi.closed hst
      | badFd fd =>
        obtain ⟨-, rfl⟩ := hst
        exact hi
      | other => exact absurd rfl hne
    | read fd buffer size answer =>
      obtain ⟨hsame, hst⟩ := hst
      unfold sysRead at hst
      split at hst
      · cases hst
      · obtain ⟨a, -, ha⟩ := checkFd_map hst
        have hw := (Prod.mk.inj ha.symm).2
        exact hi.moved hsame (by rw [← hw]) (by rw [← hw]; exact vfsRead_moves a size _)
    | write fd buffer size answer =>
      obtain ⟨hsame, hst⟩ := hst
      unfold sysWrite at hst
      split at hst
      · cases hst
      · obtain ⟨a, -, ha⟩ := checkFd_map hst
        have hw := (Prod.mk.inj ha.symm).2
        exact hi.moved hsame (by rw [← hw]) (by rw [← hw]; exact vfsWrite_moves a size _)
    | lseek fd offset whence answer =>
      obtain ⟨hsame, hst⟩ := hst
      obtain ⟨a, -, ha⟩ := checkFd_map hst
      have hw := (Prod.mk.inj ha.symm).2
      exact hi.moved hsame (by rw [← hw]) (by rw [← hw]; exact nodeLseek_moves a offset whence _)
    | other =>
      obtain ⟨hf, hk, ht, ho, htaken, hkept⟩ := hst
      exact hi.kept (hi.toFdInv.congr hf hk ht ho) ht ho htaken hkept

end GaOS.L6.FileTable
