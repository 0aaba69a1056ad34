import GaOS.L4Files.DeviceEnum

/-!
# Paths of devices in large buffers

`device_get_by_type` and `device_generate_path_of`
(kernel/src/devices/manager.c:63-105, 240-261) are the inverse of a lookup: the devices of a
type are counted in the order of the tree, and the path that is answered opens the device.
It is so on every tree, whatever directories were made on the way, because the parents are
set each time a call goes down into a list, and of two devices with one name only the first
one has anything below it.

But the names are copied with `min(strlen(name), path_len - offset)` (manager.c:95), and
`min` takes and gives `int`. In a buffer with room for 2^31 bytes or more the room can come
out as a negative number, and `memcpy` then runs over all of memory, or as a number less
than the length of the name, and the rest of the name is left out.

`inverts_iff_copied` is the exact condition: as an `int` the room for each name on the
paths is not negative and not less than the name. Up to 2^31 bytes it always holds
(`allCopied_small`).

Counterexample: /a in a buffer of 2^31 + 2 bytes.

Fix: compare the sizes as `size_t`.
-/
namespace GaOS.Bugs.PathBuffer

open GaOS.L4.Files
open GaOS.L4.Devices

/-! ## What should hold -/

/-- `devfs_open` of a path, with mode 0, makes a node of that device, and of no other one; it
answers if its requests for blocks are served. -/
def OpensOnly (root : List Entry) (path : List Nat) (dev : Record) : Prop :=
  (∀ {η : Type} (K : BlockHeap η) (s : FileState η), s.devices = devices root →
    (∀ answer v, devfsOpen K path 0 s = some (answer, v) →
      ∃ a node, answer = .ok a ∧ v.nodes a = some node ∧ node.object = .devfs dev.driver) ∧
    ((devfsOpen K path 0 s).isSome ↔ AllServed K (openRequests K path 0 s))) ∧
  ∀ r ∈ records root, r.driver.id = dev.driver.id → r = dev

/-- Names are read as the strings they were created from. Whatever is in the buffer: an index
below the number of devices of the type gives the path of that device, which opens it,
different indices are different devices, and any other index gives null. -/
structure Inverts (root : List Entry) (type : DeviceType) (size : Nat) : Prop where
  path : ∀ i p, (ofType type root)[i]? = some p → ∀ path : Nat → Nat,
    ∃ path', deviceGetByType (fun _ => []) root type path size i = some (some path') ∧
      Reads path' (pathOf p.path)
  opens : ∀ p ∈ ofType type root, OpensOnly root (pathOf p.path) p.record
  distinct : ∀ (i j : Nat) (p q : Place), (ofType type root)[i]? = some p →
    (ofType type root)[j]? = some q → i ≠ j → p.record.address ≠ q.record.address
  null : ∀ i, (ofType type root).length ≤ i → ∀ path : Nat → Nat,
    deviceGetByType (fun _ => []) root type path size i = some none

/-- The buffer has room for the paths of all devices of the type. -/
def LongEnough (root : List Entry) (type : DeviceType) (size : Nat) : Prop :=
  ∀ p ∈ ofType type root, (pathOf p.path).length + 1 ≤ size

/-! ## What holds in every buffer -/

variable {s : Manager} {type : DeviceType} {size : Nat} {p : Place}

theorem opensOnly (hi : TreeInv s) (hp : p ∈ ofType type s.list) (ht : type ≠ .reserved) :
    OpensOnly s.list (pathOf p.path) p.record := by
  obtain ⟨hplace, htype⟩ := mem_ofType.mp hp
  obtain ⟨hopen, hne, hwords, number, haddress⟩ := hi.sound.opens hplace (htype ▸ ht) 0
  constructor
  · intro η K st hdevices
    refine ⟨fun answer v h => devfsOpen_finds ?_ h, devfsOpen_isSome st⟩
    have hcomponents := components_pathOf hwords
    rw [hdevices, devfsFind_eq (by rwa [hcomponents]) (trailing_pathOf hwords), hcomponents, hopen]
    exact checkMode_allows (by simp [Allows])
  · intro r hr hid
    have hissued := hi.counted.2 _ (List.mem_map_of_mem (mem_records hplace))
    rw [haddress] at hissued
    -- a dummy has no number
    have hsame : r.address = p.record.address := by
      simp only [Record.driver, haddress] at hid
      cases ha : r.address with
      | device k =>
        rw [ha] at hid
        rw [haddress]
        exact congrArg _ hid
      | dummy k =>
        rw [ha] at hid
        have hzero : 0 = number := hid
        exact absurd hissued.1 (by omega)
    exact List.inj_on_of_nodup_map hi.counted.1 hr (mem_records hplace) hsame

theorem ofType_distinct (hi : TreeInv s) {i j : Nat} {p q : Place}
    (hp : (ofType type s.list)[i]? = some p) (hq : (ofType type s.list)[j]? = some q) (hij : i ≠ j) :
    p.record.address ≠ q.record.address := by
  have hsub : ((ofType type s.list).map (·.record.address)).Nodup := by
    have hall : ((places s.list).map (·.record.address)).Nodup := by
      have hn := hi.counted.1
      unfold addresses records at hn
      rwa [List.map_map] at hn
    exact hall.sublist (List.filter_sublist.map _)
  intro heq
  have hp' : ((ofType type s.list).map (·.record.address))[i]? = some p.record.address := by
    simp [hp]
  have hq' : ((ofType type s.list).map (·.record.address))[j]? = some p.record.address := by
    simp [hq, heq]
  obtain ⟨hi', -⟩ := List.getElem?_eq_some_iff.mp hp'
  exact hij ((List.getElem?_inj hi' hsub).mp (hp'.trans hq'.symm))

theorem readAsCreated (list : List Entry) : ReadAsCreated (fun _ => []) list := by
  intro dev _
  simp [Record.text]

/-! ## The condition -/

/-- **Enumeration inverts lookup exactly when the names are copied as a whole**, for every
tree that was built by `device_create_at`, every type but the one of directories and every
buffer that is long enough. -/
theorem inverts_iff_copied (hs : managerLTS.Reachable s) (ht : type ≠ .reserved)
    (hsize : size < 2 ^ 64) (hlong : LongEnough s.list type size) :
    Inverts s.list type size ↔ ∀ p ∈ ofType type s.list, AllCopied (size - 1) p.path 0 := by
  have hi := treeInv_inductive.reachable hs
  constructor
  · intro h p hp
    obtain ⟨i, hget⟩ := List.mem_iff_getElem?.mp hp
    by_contra hn
    obtain ⟨path', hanswer, hreads⟩ := h.path i p hget fun _ => 0
    exact getByType_cut hi (readAsCreated _) hget ht hsize (hlong p hp) hn hanswer hreads
  · intro h
    refine ⟨fun i p hget path => ?_, fun p hp => opensOnly hi hp ht,
      fun i j p q hp hq hij => ofType_distinct hi hp hq hij,
      fun i hle path => deviceGetByType_null hle⟩
    have hp := List.mem_of_getElem? hget
    exact getByType_reads hi (readAsCreated _) hget ht hsize (hlong p hp) (h p hp) path

/-! ## Examples -/

/-- The tree after /a, a serial device. -/
def aTree : Manager :=
  ⟨[allocateDummy 0 none, .mk ⟨[0x61], .serial, reserved, true, .device 1, none⟩ []], ⟨1, 0⟩⟩

theorem aTree_reachable : managerLTS.Reachable aTree := by
  have h0 : managerLTS.Reachable ⟨[allocateDummy 0 none], ⟨0, 0⟩⟩ := .init ⟨rfl, rfl⟩
  exact h0.step (l := .create [0x2F, 0x61] .serial reserved (some ⟨[0x61], .serial, reserved, true,
    .device 1, none⟩)) ⟨by simp [NoNull], fun _ => rfl, fun _ => [], rfl⟩

theorem aTree_serial : ofType .serial aTree.list =
    [⟨⟨[0x61], .serial, reserved, true, .device 1, none⟩, [[0x61]]⟩] := rfl

/-- A page is enough. -/
theorem inverts_in_page : Inverts aTree.list .serial 4096 := by
  refine (inverts_iff_copied aTree_reachable (by decide) (by decide) ?_).mpr ?_
  · simp [LongEnough, aTree_serial]
  · simp [aTree_serial, AllCopied, Copied]

/-- **A buffer that is too large.** The room for the name is 2^31 bytes, a negative number,
and the copy does not end. -/
theorem large_buffer : managerLTS.Reachable aTree ∧ LongEnough aTree.list .serial (2 ^ 31 + 2) ∧
    deviceGetByType (fun _ => []) aTree.list .serial (fun _ => 0) (2 ^ 31 + 2) 0 = none ∧
    ¬Inverts aTree.list .serial (2 ^ 31 + 2) := by
  have hnone : deviceGetByType (fun _ => []) aTree.list .serial (fun _ => 0) (2 ^ 31 + 2) 0 =
      none := by
    rw [← Option.isNone_iff_eq_none]
    decide +kernel
  refine ⟨aTree_reachable, by simp [LongEnough, aTree_serial], hnone, fun h => ?_⟩
  obtain ⟨path', hanswer, -⟩ := h.path 0 _ (by rw [aTree_serial]; rfl) fun _ => 0
  rw [hnone] at hanswer
  cases hanswer

end GaOS.Bugs.PathBuffer
