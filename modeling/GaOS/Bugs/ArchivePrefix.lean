import GaOS.L4Files.Archive

/-!
# The ramdisk is searched by prefix

`ustar_open_header` (kernel/src/filesystem/ustar.c:59-84) compares the path with the name
of an entry by `strncmp(path, header->name + 2, strlen(path))`. The comment there says
"find exact match of path", but the comparison ends with the path, so every name that
starts with the path passes, and the first one in the archive is taken.

`exact_iff_unshadowed` is the exact condition: no entry whose name goes on after the path
comes before the one that is named by it, and there is no such entry at all if none is
named by it. The empty path is only right in an archive without entries.

Counterexample: an archive with the entry `ab` alone. The path `a` opens `ab`.

Fix: compare one byte more, `strlen(path) + 1`.
-/
namespace GaOS.Bugs.ArchivePrefix

open GaOS.L4.Archive

/-! ## What should hold -/

/-- The answer is the header of the entry that is named by the path, or null without one. -/
structure Exact (hs : List (Nat × Entry)) (path : List Nat) (answer : Option Nat) : Prop where
  found : ∀ h ∈ hs, h.2.name = path → answer = some h.1
  missing : (∀ h ∈ hs, h.2.name ≠ path) → answer = none

/-! ## The condition -/

/-- An entry whose name goes on after the path comes behind the one named by the path. -/
def Unshadowed (es : List Entry) (path : List Nat) : Prop :=
  ∀ before e after, es = before ++ e :: after → path <+: e.name → e.name ≠ path →
    ∃ e' ∈ before, e'.name = path

theorem unshadowed_nil (path : List Nat) : Unshadowed [] path := by
  intro before e after h
  simp at h

variable {es : List Entry} {e : Entry} {path : List Nat}

theorem unshadowed_of_named (h : e.name = path) : Unshadowed (e :: es) path := by
  intro before e' after hsplit _ hne
  cases before with
  | nil =>
    simp only [List.nil_append, List.cons.injEq] at hsplit
    rw [← hsplit.1] at hne
    exact absurd h hne
  | cons e₁ before =>
    simp only [List.cons_append, List.cons.injEq] at hsplit
    exact ⟨e₁, List.mem_cons_self .., hsplit.1 ▸ h⟩

theorem not_unshadowed_of_longer (hp : path <+: e.name) (hne : e.name ≠ path) :
    ¬Unshadowed (e :: es) path := by
  intro h
  obtain ⟨e', hmem, -⟩ := h [] e es rfl hp hne
  simp at hmem

theorem unshadowed_skip (hp : ¬path <+: e.name) :
    Unshadowed (e :: es) path ↔ Unshadowed es path := by
  have hne : e.name ≠ path := fun h => hp (h ▸ List.prefix_rfl)
  constructor
  · intro h before e' after hsplit hpre hne'
    obtain ⟨e₁, hmem, hname⟩ := h (e :: before) e' after (by rw [hsplit]; rfl) hpre hne'
    rcases List.mem_cons.mp hmem with rfl | hmem
    · exact absurd hname hne
    · exact ⟨e₁, hmem, hname⟩
  · intro h before e' after hsplit hpre hne'
    cases before with
    | nil =>
      simp only [List.nil_append, List.cons.injEq] at hsplit
      exact absurd (hsplit.1 ▸ hpre) hp
    | cons e₁ before =>
      simp only [List.cons_append, List.cons.injEq] at hsplit
      obtain ⟨e₂, hmem, hname⟩ := h before e' after hsplit.2 hpre hne'
      exact ⟨e₂, List.mem_cons_of_mem _ hmem, hname⟩

/-! ## The walk -/

theorem headers_above {h : Nat × Entry} : ∀ {es : List Entry} {a : Nat}, h ∈ headers a es → a ≤ h.1
  | [], _, hh => by simp [headers] at hh
  | e :: es, a, hh => by
    rcases List.mem_cons.mp hh with rfl | hh
    · exact Nat.le_refl _
    · exact Nat.le_trans (Nat.le_add_right _ _) (headers_above hh)

theorem headers_entry {h : Nat × Entry} : ∀ {es : List Entry} {a : Nat}, h ∈ headers a es → h.2 ∈ es
  | [], _, hh => by simp [headers] at hh
  | e :: es, a, hh => by
    rcases List.mem_cons.mp hh with rfl | hh
    · exact List.mem_cons_self ..
    · exact List.mem_cons_of_mem _ (headers_entry hh)

/-- The first entry that passes the comparison is the one that is asked for. -/
theorem exact_find_iff (path : List Nat) : ∀ {es : List Entry} {a : Nat},
    (es.map Entry.name).Nodup →
    (Exact (headers a es) path
        (((headers a es).find? fun h => path.isPrefixOf h.2.name).map Prod.fst) ↔
      Unshadowed es path)
  | [], a, _ => by
    refine iff_of_true ⟨fun h hh => ?_, fun _ => rfl⟩ (unshadowed_nil path)
    simp [headers] at hh
  | e :: es, a, hd => by
    rw [List.map_cons, List.nodup_cons] at hd
    obtain ⟨hnot, hd⟩ := hd
    rw [headers, List.find?_cons]
    by_cases hp : path <+: e.name
    · rw [List.isPrefixOf_iff_prefix.mpr hp]
      by_cases hname : e.name = path
      · -- the entry itself; its name is no other's
        refine iff_of_true ⟨fun h hh hn => ?_, fun h => ?_⟩ (unshadowed_of_named hname)
        · rcases List.mem_cons.mp hh with rfl | hh
          · rfl
          · have hmem := List.mem_map_of_mem (f := Entry.name) (headers_entry hh)
            rw [hn, ← hname] at hmem
            exact absurd hmem hnot
        · exact absurd hname (h _ (List.mem_cons_self ..))
      · -- a longer name: the answer is no header of the entry that is asked for
        refine iff_of_false (fun hx => ?_) (not_unshadowed_of_longer hp hname)
        have hnone : ∀ h ∈ (a, e) :: headers (a + e.extent) es, h.2.name ≠ path := by
          intro h hh hn
          have hans := hx.found h hh hn
          rcases List.mem_cons.mp hh with rfl | hh
          · exact hname hn
          · have habove := headers_above hh
            simp only [Option.map_some, Option.some.injEq] at hans
            unfold Entry.extent at habove
            omega
        simpa using hx.missing hnone
    · have hb : path.isPrefixOf e.name = false := by
        rw [← Bool.not_eq_true, List.isPrefixOf_iff_prefix]
        exact hp
      have hname : e.name ≠ path := fun h => hp (h ▸ List.prefix_rfl)
      simp only [hb]
      rw [unshadowed_skip hp, ← exact_find_iff path (a := a + e.extent) hd]
      constructor
      · intro hx
        refine ⟨fun h hh => hx.found h (List.mem_cons_of_mem _ hh), fun h => hx.missing ?_⟩
        intro h' hh
        rcases List.mem_cons.mp hh with rfl | hh
        · exact hname
        · exact h h' hh
      · intro hx
        refine ⟨fun h hh hn => ?_, fun h => hx.missing fun h' hh => h h' (List.mem_cons_of_mem _ hh)⟩
        rcases List.mem_cons.mp hh with rfl | hh
        · exact absurd hn hname
        · exact hx.found h hh hn

/-- **Lookup is exact iff no longer name comes first.** For every archive whose entries
have different names, and every path: the search ends, and its answer is the header of the
entry named by the path, or null without one, iff every entry whose name goes on after the
path comes behind the one that is named by it. -/
theorem exact_iff_unshadowed {mem : Nat → Nat} {initrd : Nat} (hw : WellFormed mem initrd es)
    (hd : (es.map Entry.name).Nodup) (hp : NoNull path) :
    (∃ log answer, (∀ rounds, es.length < rounds →
        ustarOpenHeader mem initrd rounds path = some (log, answer)) ∧
      Exact (headers (initrd + 512) es) path answer) ↔ Unshadowed es path := by
  rw [← exact_find_iff path (a := initrd + 512) hd]
  constructor
  · rintro ⟨log, answer, hrun, hx⟩
    have heq := hrun _ (Nat.lt_succ_self _)
    rw [ustarOpenHeader_eq hw hp (Nat.lt_succ_self _), Option.some.injEq, Prod.mk.injEq] at heq
    rw [heq.2]
    exact hx
  · intro hx
    exact ⟨_, _, fun _ hr => ustarOpenHeader_eq hw hp hr, hx⟩

theorem small_exact : Unshadowed [smallEntry] [0x61] ∧ ∃ log answer,
    (∀ rounds, 1 < rounds → ustarOpenHeader smallArchive 0 rounds [0x61] = some (log, answer)) ∧
      Exact [(512, smallEntry)] [0x61] answer := by
  have hfits : Unshadowed [smallEntry] [0x61] := unshadowed_of_named rfl
  have hd : ([smallEntry].map Entry.name).Nodup := by simp
  exact ⟨hfits, (exact_iff_unshadowed smallArchive_wellFormed hd
    (show NoNull [0x61] by simp [NoNull])).mpr hfits⟩

/-! ## Counterexample -/

/-- The file is called `ab` instead of `a`. -/
def longArchive : Nat → Nat := fun x => if x = 515 then 0x62 else smallArchive x

def longEntry : Entry := ⟨[0x61, 0x62], [0x68, 0x69]⟩

theorem longArchive_wellFormed : WellFormed longArchive 0 [longEntry] where
  root := by simp [longArchive, smallArchive]
  root_size := by decide
  entries := by
    refine ⟨⟨?_, ?_, ?_, ?_, ?_, ?_, ?_, ?_, ?_, ?_⟩, ?_⟩
    · simp [longArchive, smallArchive]
    · simp [longArchive, smallArchive]
    · decide
    · simp [longEntry]
    · simp [NoNull, longEntry]
    · simp [longEntry]
    · decide
    · simp [longEntry]
    · simp [longArchive, smallArchive, SIZE]
    · decide
    · simp [Entries, longArchive, smallArchive, longEntry, Entry.extent]
  fits := by simp [extents, longEntry, Entry.extent]

/-- **Counterexample**: the only file is `ab`, and the path `a` opens it. -/
theorem longer_name_opened : WellFormed longArchive 0 [longEntry] ∧
    ([longEntry].map Entry.name).Nodup ∧ NoNull [0x61] ∧
    ustarOpenHeader longArchive 0 2 [0x61] = some ([512], some 512) ∧
    ¬Exact [(512, longEntry)] [0x61] (some 512) := by
  refine ⟨longArchive_wellFormed, by simp, by simp [NoNull], by decide, fun h => ?_⟩
  have hmissing := h.missing (by simp [longEntry])
  simp at hmissing

end GaOS.Bugs.ArchivePrefix
