import GaOS.L5Process.KernelHalf

/-!
# The image of an executable

What the file says should be in memory (`segments`, `wanted`), for files that say
it well (`Executable`), and what the loader puts there: `image_byte` gives, for
every byte of every segment, the byte of the file that the last read into its page
has brought there.
-/
namespace GaOS.L5.Elf

open GaOS.L1 GaOS.L1.PageAllocator GaOS.L2.TableManager GaOS.L4.RoundRobin GaOS.L4.Ustar
open GaOS.L5.Fork (copyHigherHalf frame)

variable {σ : Type} {P : PageSource σ} {node : Node}

/-! ## What the file says -/

def fileEhdr (node : Node) : Ehdr := Buffer.ehdr node.file.image

def filePhdr (node : Node) (i : Nat) : Phdr :=
  Buffer.phdr fun k => node.file.image ((fileEhdr node).phoff + 56 * i + k)

/-- The segments to load, in the order of their headers. -/
def segments (node : Node) : List Phdr :=
  loadable ((List.range (fileEhdr node).phnum).map (filePhdr node))

/-- The byte at offset `j` of a segment. -/
def wanted (node : Node) (s : Phdr) (j : Nat) : Nat :=
  if j < s.filesz then node.file.image (s.offset + j) else 0

/-- The page ranges of two segments are disjoint. -/
def Apart (s t : Phdr) : Prop :=
  ∀ i j, i < s.memsz → j < t.memsz → (s.vaddr + i) / PAGE ≠ (t.vaddr + j) / PAGE

/-- A complete image. The size of a file is twelve octal digits. -/
structure Executable (node : Node) : Prop where
  bounded : node.file.size < 2 ^ 36
  whole : node.maxSeekPosition = node.file.size
  header : 64 ≤ node.file.size
  table : (fileEhdr node).phoff + 56 * (fileEhdr node).phnum ≤ node.file.size
  aligned : ∀ s ∈ segments node, s.vaddr % PAGE = 0
  lower : ∀ s ∈ segments node, s.vaddr < 2 ^ 47 ∧ s.memsz ≤ 2 ^ 47
  smaller : ∀ s ∈ segments node, s.filesz ≤ s.memsz
  inside : ∀ s ∈ segments node, s.offset + s.filesz ≤ node.file.size
  disjoint : (segments node).Pairwise Apart

/-! ## Reading the headers -/

theorem field_congr {b b' : Buffer} {o n : Nat} (h : ∀ k, o ≤ k → k < o + n → b k = b' k) :
    b.field o n = b'.field o n := by
  induction n generalizing o with
  | zero => rfl
  | succ n ih =>
    rw [Buffer.field, Buffer.field, h o (Nat.le_refl _) (by omega),
      ih fun k h1 h2 => h k (by omega) (by omega)]

theorem ehdr_congr {b b' : Buffer} (h : ∀ k, k < 64 → b k = b' k) : b.ehdr = b'.ehdr := by
  have hf : ∀ o n, o + n ≤ 64 → b.field o n = b'.field o n :=
    fun o n hn => field_congr fun k _ hk => h k (by omega)
  unfold Buffer.ehdr
  rw [hf 16 2 (by decide), hf 18 2 (by decide), hf 24 8 (by decide), hf 32 8 (by decide),
    hf 56 2 (by decide), h 0 (by decide), h 1 (by decide), h 2 (by decide), h 3 (by decide),
    h 4 (by decide)]

theorem phdr_congr {b b' : Buffer} (h : ∀ k, k < 56 → b k = b' k) : b.phdr = b'.phdr := by
  have hf : ∀ o n, o + n ≤ 56 → b.field o n = b'.field o n :=
    fun o n hn => field_congr fun k _ hk => h k (by omega)
  unfold Buffer.phdr
  rw [hf 0 4 (by decide), hf 8 8 (by decide), hf 16 8 (by decide), hf 32 8 (by decide),
    hf 40 8 (by decide)]

section
variable (he : Executable node) (hint : node.file.size % 2 ^ 32 < 2 ^ 31)
  (hcap : 64 ≤ node.file.size % 2 ^ 32)
include he hint hcap

/-- A structure that is in the file is read as a whole. -/
theorem readBuffer_whole {offset size : Nat} {buffer b : Buffer} (hs : size ≤ 64) (h0 : 0 < size)
    (hin : offset + size ≤ node.file.size)
    (h : readBuffer node offset size buffer = some b) {k : Nat} (hk : k < size) :
    b k = node.file.image (offset + k) := by
  have hbound := he.bounded
  rw [readBuffer, readAt_eq (by omega) hint (by omega), he.whole, Nat.min_eq_left (by omega),
    if_neg (by omega)] at h
  cases h
  simp only
  rw [if_pos (by omega)]

theorem readEhdr_file {buffer b : Buffer} (h : readBuffer node 0 64 buffer = some b) :
    b.ehdr = fileEhdr node := by
  refine ehdr_congr fun k hk => ?_
  rw [readBuffer_whole he hint hcap (by omega) (by omega) (by have := he.header; omega) h hk,
    Nat.zero_add]

theorem headers_file {n : Nat} {buffer b : Buffer} {hs : List Phdr}
    (hn : n ≤ (fileEhdr node).phnum)
    (h : headers node (fileEhdr node).phoff n buffer = some (b, hs)) :
    hs = (List.range n).map (filePhdr node) := by
  induction n generalizing b hs with
  | zero => cases h; rfl
  | succ n ih =>
    simp only [headers, Option.bind_eq_bind, Option.bind_eq_some_iff, Prod.exists] at h
    obtain ⟨b₁, hs₁, h1, b₂, h2, h3⟩ := h
    cases h3
    have htable := he.table
    have hbound := he.bounded
    have hadd : add64 (fileEhdr node).phoff (mul64 56 n) = (fileEhdr node).phoff + 56 * n := by
      unfold add64 mul64
      rw [Nat.mod_eq_of_lt (a := 56 * n) (by omega), Nat.mod_eq_of_lt (by omega)]
    rw [readPhdr, hadd] at h2
    rw [ih (by omega) h1, List.range_succ, List.map_append, List.map_singleton, filePhdr]
    congr 2
    refine phdr_congr fun k hk => ?_
    exact readBuffer_whole he hint hcap (by omega) (by omega) (by omega) h2 hk

end

/-! ## Reading the pages -/

/-- The read for the page at offset `i` of a segment gets to byte `k` of the page. -/
def Reached (node : Node) (h : Phdr) (i k : Nat) : Prop :=
  i ≤ h.filesz + PAGE ∧ h.offset + i < node.file.size ∧ k < node.file.size % 2 ^ 32 ∧
    k < (toInt32 (h.filesz - i)).natAbs

instance (node : Node) (h : Phdr) (i k : Nat) : Decidable (Reached node h i k) :=
  inferInstanceAs (Decidable (_ ∧ _))

def pageByte (node : Node) (h : Phdr) (i k : Nat) : Nat :=
  if Reached node h i k then node.file.image (h.offset + i + k) else 0

theorem loadSize_eq {filesz i : Nat} {size : Option Nat} (hf : filesz < 2 ^ 36) (hi : i ≤ 2 ^ 47)
    (h : loadSize filesz i = some size) :
    size = if i ≤ filesz + PAGE then some (min (toInt32 (filesz - i)).natAbs PAGE) else none := by
  have h1 : toInt64 filesz = filesz := by
    unfold toInt64; rw [Int.bmod_def]; omega
  have h2 : toInt64 i = i := by
    unfold toInt64; rw [Int.bmod_def]; omega
  simp only [loadSize, h1, h2] at h
  rw [if_neg (by omega)] at h
  split at h
  · rename_i hlt
    cases h
    rw [if_neg (by omega)]
  · rename_i hge
    rw [Option.map_eq_some_iff] at h
    obtain ⟨a, ha, rfl⟩ := h
    unfold absInt at ha
    split at ha
    · cases ha
    · rename_i hmin
      have hlow : -2 ^ 31 ≤ toInt32 ((filesz : Int) - i) ∧ toInt32 ((filesz : Int) - i) < 2 ^ 31 := by
        unfold toInt32; rw [Int.bmod_def]; omega
      have habs : a = ((toInt32 ((filesz : Int) - i)).natAbs : Int) := by
        simp only [Option.some.injEq] at ha
        rw [← ha]
        split <;> omega
      rw [if_pos (by omega), habs, minInt_eq (by omega) (by decide), Nat.mod_eq_of_lt (by omega),
        Int.toNat_natCast]

theorem pageBytes_eq {h : Phdr} {i k : Nat} {bytes : Nat → Nat} (he : Executable node)
    (hint : node.file.size % 2 ^ 32 < 2 ^ 31) (hin : h.offset + h.filesz ≤ node.file.size)
    (hi : i ≤ 2 ^ 47) (hk : k < PAGE) (hb : pageBytes node h i = some bytes) :
    bytes k = pageByte node h i k := by
  have hbound := he.bounded
  simp only [pageBytes, Option.bind_eq_bind, Option.bind_eq_some_iff] at hb
  obtain ⟨size, hsize, hb⟩ := hb
  rw [loadSize_eq (by omega) hi hsize] at hb
  unfold pageByte
  by_cases hnear : i ≤ h.filesz + PAGE
  · rw [if_pos hnear] at hb
    have hadd : add64 h.offset i = h.offset + i := by unfold add64; omega
    simp only [hadd] at hb
    rw [readAt_eq (by omega) hint (by simp only [PAGE]; omega), he.whole] at hb
    cases hb
    simp only
    by_cases hend : h.offset + i < node.file.size
    · rw [Nat.min_eq_left (Nat.le_of_lt hend), if_neg (Nat.not_le.mpr hend)]
      refine if_congr ?_ rfl rfl
      constructor
      · intro h1
        exact ⟨hnear, hend, by omega, by omega⟩
      · rintro ⟨-, -, h1, h2⟩
        omega
    · rw [Nat.min_eq_right (Nat.not_lt.mp hend), if_pos (Nat.le_refl _), if_neg (Nat.not_lt_zero _),
        if_neg fun hr => hend hr.2.1]
  · rw [if_neg hnear] at hb
    cases hb
    exact (if_neg fun hr => hnear hr.1).symm

/-! ## The pages -/

/-- The page past the end of `t` is the page at offset `i` of `s`. -/
def Covers (s : Phdr) (i : Nat) (t : Phdr) : Prop :=
  t.memsz % PAGE = 0 ∧ t.vaddr + t.memsz = s.vaddr + i

instance (s : Phdr) (i : Nat) (t : Phdr) : Decidable (Covers s i t) :=
  inferInstanceAs (Decidable (_ ∧ _))

/-- The segment and the offset of the page that is placed last where the page at
offset `i` of `s` is; `post` are the segments after `s`. -/
def lastPage (s : Phdr) (i : Nat) (post : List Phdr) : Phdr × Nat :=
  match post.reverse.find? (Covers s i) with
  | some t => (t, t.memsz)
  | none => (s, i)

theorem vpn_page {t : Phdr} {n : Nat} (ha : t.vaddr % PAGE = 0)
    (hlt : t.vaddr + n * PAGE < 2 ^ 48) :
    vpn (add64 t.vaddr (n * PAGE)) = t.vaddr / PAGE + n := by
  unfold vpn add64
  simp only [PAGE] at *; omega

theorem latest_pages {t : Phdr} {c n : Nat} (ha : t.vaddr % PAGE = 0)
    (hlt : ∀ k, k < c → t.vaddr + k * PAGE < 2 ^ 48) :
    latest (((List.range c).map fun n => (t, n * PAGE)).map (placed node)) n =
      if t.vaddr / PAGE ≤ n ∧ n < t.vaddr / PAGE + c then
        some (placed node (t, (n - t.vaddr / PAGE) * PAGE)).bytes
      else none := by
  have hvpn : ∀ k, k < c → vpn (placed node (t, k * PAGE)).address = t.vaddr / PAGE + k :=
    fun k hk => vpn_page ha (hlt k hk)
  generalize t.vaddr / PAGE = base at hvpn ⊢
  clear hlt
  induction c with
  | zero => rw [if_neg (by omega)]; rfl
  | succ c ih =>
    rw [List.range_succ, List.map_append, List.map_append, latest_append,
      ih fun k hk => hvpn k (Nat.lt_succ_of_lt hk)]
    simp only [List.map_cons, List.map_nil]
    rw [latest_singleton, hvpn c (Nat.lt_succ_self c)]
    by_cases he : base + c = n
    · subst he
      rw [if_pos rfl, Option.some_or, if_pos ⟨Nat.le_add_right _ _, Nat.lt_succ_self _⟩,
        Nat.add_sub_cancel_left]
    · rw [if_neg he, Option.none_or]
      refine if_congr ?_ rfl rfl
      omega

/-- What is placed for a segment, at the page at offset `i` of segment `s`. -/
theorem latest_segment {s t : Phdr} {i : Nat} (hs : s.vaddr % PAGE = 0) (hi : i % PAGE = 0)
    (ht : t.vaddr % PAGE = 0) (hlt : t.vaddr + t.memsz < 2 ^ 48) :
    latest ((pagesOf t).map (placed node)) ((s.vaddr + i) / PAGE) =
      if t.vaddr ≤ s.vaddr + i ∧ s.vaddr + i ≤ t.vaddr + t.memsz then
        some (placed node (t, s.vaddr + i - t.vaddr)).bytes
      else none := by
  rw [pagesOf, latest_pages ht]
  · have hoff : t.vaddr ≤ s.vaddr + i →
        ((s.vaddr + i) / PAGE - t.vaddr / PAGE) * PAGE = s.vaddr + i - t.vaddr := by
      intro _
      simp only [PAGE] at *; omega
    have hiff : t.vaddr / PAGE ≤ (s.vaddr + i) / PAGE ∧
        (s.vaddr + i) / PAGE < t.vaddr / PAGE + (t.memsz / PAGE + 1) ↔
        t.vaddr ≤ s.vaddr + i ∧ s.vaddr + i ≤ t.vaddr + t.memsz := by
      simp only [PAGE] at *; omega
    by_cases h : t.vaddr ≤ s.vaddr + i ∧ s.vaddr + i ≤ t.vaddr + t.memsz
    · rw [if_pos (hiff.mpr h), if_pos h, hoff h.1]
    · rw [if_neg fun h' => h (hiff.mp h'), if_neg h]
  · intro k hk
    simp only [PAGE] at *; omega

section
variable {s t : Phdr} {i : Nat} (hs : s.vaddr % PAGE = 0) (hi : i % PAGE = 0) (hlt : i < s.memsz)
include hs hi hlt

/-- Of another segment, only the page past its end can be a page of `s`. -/
theorem latest_other (ht : t.vaddr % PAGE = 0) (hend : t.vaddr + t.memsz < 2 ^ 48)
    (ha : Apart s t) : latest ((pagesOf t).map (placed node)) ((s.vaddr + i) / PAGE) =
      if Covers s i t then some (placed node (t, t.memsz)).bytes else none := by
  rw [latest_segment hs hi ht hend]
  by_cases hc : Covers s i t
  · obtain ⟨hc1, hc2⟩ := hc
    rw [if_pos ⟨by omega, by omega⟩, if_pos ⟨hc1, hc2⟩, ← hc2, Nat.add_sub_cancel_left]
  · rw [if_neg hc, if_neg]
    intro ⟨h1, h2⟩
    have hj := ha i (s.vaddr + i - t.vaddr) hlt
    rw [Nat.add_sub_of_le h1] at hj
    refine hc ⟨?_, by omega⟩
    have : s.vaddr + i = t.vaddr + t.memsz := by omega
    simp only [PAGE] at *; omega

theorem latest_post {post : List Phdr}
    (hpost : ∀ t ∈ post, t.vaddr % PAGE = 0 ∧ t.vaddr + t.memsz < 2 ^ 48 ∧ Apart s t) :
    latest ((post.flatMap pagesOf).map (placed node)) ((s.vaddr + i) / PAGE) =
      (post.reverse.find? (Covers s i)).map fun t => (placed node (t, t.memsz)).bytes := by
  induction post with
  | nil => rfl
  | cons t post ih =>
    obtain ⟨⟨h1, h2, h3⟩, hrest⟩ := List.forall_mem_cons.mp hpost
    rw [List.flatMap_cons, List.map_append, latest_append, ih hrest,
      latest_other hs hi hlt h1 h2 h3, List.reverse_cons, List.find?_append, List.find?_singleton]
    cases post.reverse.find? (Covers s i) with
    | some u => rfl
    | none =>
      simp only [Option.map_none, Option.none_or, decide_eq_true_eq]
      split <;> rfl

/-- What is there in the end. -/
theorem latest_image {pre post : List Phdr} {stackBase : Nat} (hend : s.vaddr + s.memsz < 2 ^ 48)
    (hpost : ∀ t ∈ post, t.vaddr % PAGE = 0 ∧ t.vaddr + t.memsz < 2 ^ 48 ∧ Apart s t)
    (hstack : vpn stackBase ≠ (s.vaddr + i) / PAGE) :
    latest ((((pre ++ s :: post).flatMap pagesOf).map (placed node)) ++ [⟨stackBase, fun _ => 0⟩])
      ((s.vaddr + i) / PAGE) = some (placed node (lastPage s i post)).bytes := by
  have hown : latest ((pagesOf s).map (placed node)) ((s.vaddr + i) / PAGE) =
      some (placed node (s, i)).bytes := by
    rw [latest_segment hs hi hs hend, if_pos ⟨by omega, by omega⟩, Nat.add_sub_cancel_left]
  rw [latest_append, latest_singleton, if_neg hstack, Option.none_or, List.flatMap_append,
    List.map_append, latest_append, List.flatMap_cons, List.map_append, latest_append, hown,
    latest_post hs hi hlt hpost, lastPage]
  cases post.reverse.find? (Covers s i) <;> rfl

end

/-! ## The stack -/

theorem lowest_le {hs : List Phdr} {s : Phdr} (h : s ∈ hs) : lowest hs ≤ s.vaddr := by
  induction hs using List.reverseRecOn with
  | nil => cases h
  | append_singleton hs t ih =>
    rw [lowest_snoc]
    rcases List.mem_append.mp h with h | h
    · have := ih h
      split <;> omega
    · rw [List.mem_singleton.mp h]
      split <;> omega

/-- The stack is below all segments, or at the very end of the address space. -/
theorem stack_apart {base a : Nat} (hb : base ≤ a) (ha : a < 2 ^ 48 - PAGE) :
    vpn (sub64 base PAGE) ≠ a / PAGE := by
  unfold vpn sub64
  simp only [PAGE] at *
  omega

/-! ## The address space of the new task -/

variable {own boot : Nat} {path : String} {stack : Buffer × Buffer} {simd : SimdState}
  {mem mem' : Mem} {s s' : Scheduler σ} {task : Nat}

theorem elfTask_cr3 {pageTable entry stackBase c : Nat}
    (h : elfTask P own path pageTable entry stackBase simd s = some (c, task, s')) :
    (s'.tasks task).registers.cpu.cr3 = sub64 pageTable P.hhdm := by
  simp only [elfTask, Option.bind_eq_bind, Option.bind_eq_some_iff, Prod.exists] at h
  obtain ⟨_, _, s₁, -, he⟩ := h
  simp only [Option.pure_def, Option.some.injEq, Prod.mk.injEq] at he
  obtain ⟨-, rfl, rfl⟩ := he
  rw [start, tasks_modify_self, fill, tasks_modify_self]

/-- What loading is made of. -/
theorem elfLoadFrom_some
    (h : elfLoadFrom P own boot path node stack simd mem s = some (some task, mem', s')) :
    ∃ buffer table stackBase src, readBuffer node 0 64 stack.1 = some buffer ∧
      buffer.ehdr.Accepted ∧
      loadImage P node buffer.ehdr boot stack.2 ⟨mem, s.src⟩ =
        some (table, stackBase, ⟨mem', src⟩) ∧
      (s'.tasks task).registers.cpu.cr3 = sub64 table P.hhdm := by
  simp only [elfLoadFrom, Option.bind_eq_bind, Option.bind_eq_some_iff] at h
  obtain ⟨buffer, hread, h⟩ := h
  split at h
  · simp at h
  · rename_i hacc
    simp only [Option.bind_eq_some_iff, Prod.exists] at h
    obtain ⟨table, stackBase, m, hload, c, t, s₁, htask, he⟩ := h
    simp only [Option.pure_def, Option.some.injEq, Prod.mk.injEq] at he
    obtain ⟨rfl, rfl, rfl⟩ := he
    exact ⟨buffer, table, stackBase, m.src, hread, not_not.mp hacc, hload, elfTask_cr3 htask⟩

/-- The address space at `root` has byte `b` at `v`. -/
def Holds (P : PageSource σ) (mem : Mem) (root v b : Nat) : Prop :=
  Present (leafEntry P.hhdm mem root v) ∧ byteAt mem (frame P mem root v + v % PAGE) = b

theorem Executable.segment (he : Executable node) {t : Phdr} (ht : t ∈ segments node) :
    t.vaddr % PAGE = 0 ∧ t.vaddr + t.memsz ≤ 2 ^ 48 - PAGE := by
  have h1 := he.aligned t ht
  have h2 := he.lower t ht
  refine ⟨h1, ?_⟩
  simp only [PAGE] at *; omega

/-- The pages of the segments, then the stack. -/
def placedPages (node : Node) : List Placed :=
  ((segments node).flatMap pagesOf).map (placed node) ++
    [⟨sub64 (lowest (segments node)) PAGE, fun _ => 0⟩]

theorem loaded_image (hb : Tree P 512 ⟨mem, s.src⟩ boot) (he : Executable node)
    (hcap : 64 ≤ node.file.size % 2 ^ 32)
    (h : elfLoadFrom P own boot path node stack simd mem s = some (some task, mem', s')) :
    ∃ src, Loaded P (add64 (s'.tasks task).registers.cpu.cr3 P.hhdm) (placedPages node) ⟨mem', src⟩ ∧
      node.file.size % 2 ^ 32 < 2 ^ 31 ∧
      ∀ page ∈ (segments node).flatMap pagesOf, (pageBytes node page.1 page.2).isSome := by
  obtain ⟨buffer, table, stackBase, src, hread, -, hload, hcr3⟩ := elfLoadFrom_some h
  have hint : node.file.size % 2 ^ 32 < 2 ^ 31 := by
    rw [readBuffer, Option.map_eq_some_iff] at hread
    obtain ⟨copy, hcopy, -⟩ := hread
    exact readAt_size (by have := he.header; omega) hcopy
  rw [readEhdr_file he hint hcap hread] at hload
  obtain ⟨m₁, b₁, b₂, hs₁, hs₂, hnew, hh₁, hh₂, hbase, hsome, hr⟩ := loadImage_run hload
  rw [headers_file he hint hcap (Nat.le_refl _) hh₁] at hbase
  rw [headers_file he hint hcap (Nat.le_refl _) hh₂] at hsome
  rw [headers_file he hint hcap (Nat.le_refl _) hh₂, hbase] at hr
  have hl : Loaded P table (placedPages node) ⟨mem', src⟩ := loaded_run ⟨_, m₁, hb, hnew, rfl⟩ hr
  have hroot : add64 (s'.tasks task).registers.cpu.cr3 P.hhdm = table := by
    rw [hcr3]; exact (hl.tree.layer [] table .nil rfl).physicalAddress.2.2
  exact ⟨src, hroot ▸ hl, hint, hsome⟩

/-- The page that is placed last is a page of a segment. -/
theorem lastPage_mem {hs post : List Phdr} {seg : Phdr} {i : Nat} (hmem : seg ∈ hs)
    (hpost : ∀ t ∈ post, t ∈ hs) (hi : i % PAGE = 0) (hle : i ≤ seg.memsz) :
    (lastPage seg i post).1 ∈ hs ∧ (lastPage seg i post).2 ≤ (lastPage seg i post).1.memsz ∧
      lastPage seg i post ∈ hs.flatMap pagesOf := by
  have hpage : ∀ t ∈ hs, ∀ j, j % PAGE = 0 → j ≤ t.memsz → (t, j) ∈ hs.flatMap pagesOf := by
    intro t ht j hj hjle
    refine List.mem_flatMap.mpr ⟨t, ht, List.mem_map.mpr ⟨j / PAGE, ?_, ?_⟩⟩
    · exact List.mem_range.mpr (Nat.lt_succ_of_le (Nat.div_le_div_right hjle))
    · rw [Nat.div_mul_cancel (Nat.dvd_of_mod_eq_zero hj)]
  unfold lastPage
  cases hf : post.reverse.find? (Covers seg i) with
  | none => exact ⟨hmem, hle, hpage seg hmem i hi hle⟩
  | some t =>
    have ht := hpost t (List.mem_reverse.mp (List.mem_of_find?_eq_some hf))
    have hc := List.find?_some hf
    rw [decide_eq_true_eq] at hc
    exact ⟨ht, Nat.le_refl _, hpage t ht _ hc.1 (Nat.le_refl _)⟩

/-- **The image in memory.** Every byte of every segment is what the last read into
its page has brought. -/
theorem image_byte (hb : Tree P 512 ⟨mem, s.src⟩ boot) (he : Executable node)
    (hcap : 64 ≤ node.file.size % 2 ^ 32)
    (h : elfLoadFrom P own boot path node stack simd mem s = some (some task, mem', s'))
    {pre post : List Phdr} {seg : Phdr} (hsegs : segments node = pre ++ seg :: post) {i k : Nat}
    (hi : i % PAGE = 0) (hk : k < PAGE) (hlt : i + k < seg.memsz) :
    Holds P mem' (add64 (s'.tasks task).registers.cpu.cr3 P.hhdm) (seg.vaddr + (i + k))
      (pageByte node (lastPage seg i post).1 (lastPage seg i post).2 k) := by
  obtain ⟨src, hl, hint, hsome⟩ := loaded_image hb he hcap h
  have hmem : seg ∈ segments node := by
    rw [hsegs]; exact List.mem_append_right _ List.mem_cons_self
  have hpostmem : ∀ t ∈ post, t ∈ segments node := by
    intro t ht
    rw [hsegs]; exact List.mem_append_right _ (List.mem_cons_of_mem _ ht)
  have hpost : ∀ t ∈ post, t.vaddr % PAGE = 0 ∧ t.vaddr + t.memsz < 2 ^ 48 ∧ Apart seg t := by
    intro t ht
    obtain ⟨h1, h2⟩ := he.segment (hpostmem t ht)
    have hd := he.disjoint
    rw [hsegs, List.pairwise_append] at hd
    refine ⟨h1, ?_, (List.pairwise_cons.mp hd.2.1).1 t ht⟩
    simp only [PAGE] at h2; omega
  obtain ⟨hal, hend⟩ := he.segment hmem
  have hstack : vpn (sub64 (lowest (segments node)) PAGE) ≠ (seg.vaddr + i) / PAGE :=
    stack_apart (Nat.le_trans (lowest_le hmem) (Nat.le_add_right _ i))
      (by simp only [PAGE] at hend ⊢; omega)
  obtain ⟨hvpn, hmod⟩ : vpn (seg.vaddr + (i + k)) = (seg.vaddr + i) / PAGE ∧
      (seg.vaddr + (i + k)) % PAGE = k := by
    unfold vpn
    simp only [PAGE] at hi hk hal hend ⊢; omega
  have hlatest : latest (placedPages node) (vpn (seg.vaddr + (i + k))) =
      some (placed node (lastPage seg i post)).bytes := by
    have hwhole := @latest_image node seg i hal hi (by omega) pre post _
      (by simp only [PAGE] at hend; omega) hpost hstack
    rw [hvpn, placedPages]
    rw [hsegs] at hwhole ⊢
    exact hwhole
  obtain ⟨hpres, hheld⟩ := hl.frames _ _ hlatest
  refine ⟨hpres, ?_⟩
  rw [hmod, hheld.bytes k hk]
  obtain ⟨h1, h2, h3⟩ := lastPage_mem hmem hpostmem hi (by omega)
  obtain ⟨bytes, hbytes⟩ := Option.isSome_iff_exists.mp (hsome _ h3)
  rw [placed, hbytes]
  exact pageBytes_eq he hint (he.inside _ h1) (Nat.le_trans h2 (he.lower _ h1).2) hk hbytes

/-! ## A small kernel -/

/-- A processor with its idle task. -/
def smallScheduler : Scheduler Nat :=
  match performAll bootSource bootImage bootScheduler [.install 0 fun _ => 0] with
  | some (_, s) => s
  | none => bootScheduler

/-- The kernel's table, with one page of its image. -/
def smallKernel : Option (Table Nat) := do
  let (root, m) ← archTableManagerNew bootSource ⟨fun _ => 0xAA, smallScheduler.src⟩
  let m ← map bootSource m root 0xFFFFFFFF80000000 0x5000 TABLE_ENTRY_READ_WRITE
  return ⟨root, m⟩

def littleEndian (x : Nat) : Nat → List Nat
  | 0 => []
  | n + 1 => x % 256 :: littleEndian (x / 256) n

/-- The headers of an executable, as its first bytes. -/
def elfHeaders (entry : Nat) (hs : List Phdr) : List Nat :=
  ELFMAG ++ [ELFDATA2MSB, 1, 1] ++ littleEndian 0 9 ++ littleEndian ET_EXEC 2 ++
    littleEndian EM_X86_64 2 ++ littleEndian 1 4 ++ littleEndian entry 8 ++ littleEndian 64 8 ++
    littleEndian 0 12 ++ littleEndian 64 2 ++ littleEndian 56 2 ++ littleEndian hs.length 2 ++
    littleEndian 0 6 ++ hs.flatMap fun h => littleEndian h.type 4 ++ littleEndian 7 4 ++
      littleEndian h.offset 8 ++ littleEndian h.vaddr 8 ++ littleEndian h.vaddr 8 ++
      littleEndian h.filesz 8 ++ littleEndian h.memsz 8 ++ littleEndian PAGE 8

/-- A file of `size` bytes: the headers and then 0x90. -/
def elfNode (size entry : Nat) (hs : List Phdr) : Node where
  file := ⟨size, fun i => (elfHeaders entry hs).getD i 0x90 % 256, fun _ => Nat.mod_lt _ (by decide)⟩
  seekPosition := 0
  maxSeekPosition := size

/-- Loading such a file in the small kernel. -/
def smallLoad (node : Node) : Option (Option Nat × Mem × Scheduler Nat) := do
  let kernel ← smallKernel
  elfLoadFrom bootSource 0 kernel.root "/init.elf" node (fun _ => 0, fun _ => 0) (fun _ => 0)
    kernel.machine.mem { smallScheduler with src := kernel.machine.src }

theorem smallKernel_reachable {kernel : Table Nat} (h : smallKernel = some kernel) :
    (kernelLTS bootSource).Reachable kernel := by
  simp only [smallKernel, Option.bind_eq_bind, Option.bind_eq_some_iff, Prod.exists] at h
  obtain ⟨root, m₁, hnew, m₂, hmap, h⟩ := h
  cases h
  exact .step (.init (s := ⟨root, m₁⟩) ⟨_, hnew⟩) (l := .map _ _ _) ⟨rfl, by decide, hmap⟩

theorem smallLoad_some {node : Node} (h : (smallLoad node).map (·.1.isSome) = some true) :
    ∃ kernel, smallKernel = some kernel ∧ ∃ task mem' s',
      elfLoadFrom bootSource 0 kernel.root "/init.elf" node (fun _ => 0, fun _ => 0) (fun _ => 0)
        kernel.machine.mem { smallScheduler with src := kernel.machine.src } =
          some (some task, mem', s') := by
  rw [Option.map_eq_some_iff] at h
  obtain ⟨⟨answer, mem', s'⟩, h, hsome⟩ := h
  simp only [smallLoad, Option.bind_eq_bind, Option.bind_eq_some_iff] at h
  obtain ⟨kernel, hk, hload⟩ := h
  obtain ⟨task, rfl⟩ := Option.isSome_iff_exists.mp hsome
  exact ⟨kernel, hk, task, mem', s', hload⟩

end GaOS.L5.Elf
