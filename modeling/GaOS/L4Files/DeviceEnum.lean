import GaOS.L4Files.DevicePaths

/-!
# Devices by type, and their paths

What `device_get_by_type` answers. Its search counts the devices of a type in the order
of the tree (`getByTypeRecursive_eq`). The path of the one it finds is made from the names
up to the top; they are copied one after another, each with a delimiter in front of it, and
the number of bytes goes through an `int` (`AllCopied`, `writeNames_eq`,
`writeNames_null`). `getByType_reads` is all of it.
-/
namespace GaOS.L4.Devices

open GaOS.L4.Files
open GaOS.L4.Ustar (minInt toInt32_nat)

variable {type : DeviceType} {list root : List Entry} {p : Place}

theorem length_places : ∀ {list : List Entry} {p : Place}, p ∈ places list →
    p.path.length ≤ (places list).length
  | [], _, h => by cases h
  | .mk dev children :: list, p, h => by
    rw [places, Entry.places] at h ⊢
    simp only [List.cons_append, List.mem_cons, List.mem_append, List.mem_map] at h
    simp only [List.length_cons, List.length_append, List.length_map]
    rcases h with rfl | ⟨q, hq, rfl⟩ | hp
    · simp only [List.length_singleton]
      omega
    · have hle := length_places hq
      simp only [Place.below, List.length_cons]
      omega
    · have hle := length_places hp
      omega

theorem length_trail {trail : List Record} {dev : Record} (h : Trail list trail dev) :
    trail.reverse.length ≤ (records list).length + 1 := by
  have hle := length_places h.place
  simp only [List.length_map] at hle
  rw [List.length_reverse, records, List.length_map]
  omega

/-- The devices of a type, in the order of the tree. -/
def ofType (type : DeviceType) (list : List Entry) : List Place :=
  (places list).filter (·.record.type = type)

theorem ofType_cons (type : DeviceType) (dev : Record) (children list : List Entry) :
    ofType type (.mk dev children :: list) = (if dev.type = type then [⟨dev, [dev.name]⟩] else []) ++
      ((ofType type children).map (Place.below dev.name) ++ ofType type list) := by
  have hmap : ((places children).map (Place.below dev.name)).filter (·.record.type = type) =
      (ofType type children).map (Place.below dev.name) := by
    rw [List.filter_map]
    rfl
  rw [ofType, places, Entry.places, List.filter_append, List.filter_cons, hmap]
  split
  · rename_i h
    simp_all [ofType]
  · rename_i h
    simp_all [ofType]

/-- The device with that index, or how far the index is behind the last one. -/
def pick (ps : List Place) (index : Nat) : Record ⊕ Nat :=
  match ps[index]? with
  | some p => .inl p.record
  | none => .inr (index - ps.length)

theorem pick_append (ps qs : List Place) (index : Nat) :
    pick (ps ++ qs) index = match pick ps index with
      | .inl found => .inl found
      | .inr index => pick qs index := by
  unfold pick
  by_cases h : index < ps.length
  · rw [List.getElem?_append_left h, List.getElem?_eq_getElem h]
  · have hle := Nat.le_of_not_lt h
    rw [List.getElem?_append_right hle, List.getElem?_eq_none hle, List.length_append,
      Nat.sub_add_eq]

theorem pick_map (name : List Nat) (ps : List Place) (index : Nat) :
    pick (ps.map (Place.below name)) index = pick ps index := by
  unfold pick
  rw [List.getElem?_map, List.length_map]
  cases ps[index]? with
  | none => rfl
  | some p => rfl

/-- **The search counts the devices of the type.** -/
theorem getByTypeRecursive_eq (type : DeviceType) : ∀ (list : List Entry) (index : Nat),
    getByTypeRecursive type list index = pick (ofType type list) index
  | [], index => rfl
  | .mk dev children :: list, index => by
    have hchildren := getByTypeRecursive_eq type children
    have hlist := getByTypeRecursive_eq type list
    rw [getByTypeRecursive, Entry.getByType, ofType_cons, pick_append]
    simp only [hchildren, hlist, pick_append, pick_map]
    by_cases ht : dev.type = type
    · cases index with
      | zero => simp [ht, pick]
      | succ index =>
        have hone : pick [⟨dev, [dev.name]⟩] (index + 1) = .inr index := by simp [pick]
        cases hc : pick (ofType type children) index with
        | inl found => simp [ht, hone, hc]
        | inr left => simp [ht, hone, hc]
    · have hnone : pick [] index = .inr index := by simp [pick]
      cases hc : pick (ofType type children) index with
      | inl found => simp [ht, hnone, hc]
      | inr left => simp [ht, hnone, hc]

/-! ## The string of a path -/

/-- A delimiter in front of every name. -/
def pathOf (names : List (List Nat)) : List Nat := names.flatMap (SLASH :: ·)

@[simp] theorem pathOf_nil : pathOf [] = [] := rfl

@[simp] theorem pathOf_cons (name : List Nat) (names : List (List Nat)) :
    pathOf (name :: names) = SLASH :: (name ++ pathOf names) := by simp [pathOf]

variable {names : List (List Nat)} {size pathLen offset : Nat} {path path' : Nat → Nat}

theorem components_pathOf (h : ∀ c ∈ names, Word c ∧ NoNull c) :
    components (pathOf names) = names := by
  induction names with
  | nil => rfl
  | cons c names ih =>
    have hc := (h c (List.mem_cons_self ..)).1
    have hrest := ih fun c hc => h c (List.mem_cons_of_mem _ hc)
    rw [pathOf_cons, components_slash]
    cases names with
    | nil => rw [pathOf_nil, List.append_nil, components_last hc]
    | cons d names =>
      rw [pathOf_cons, components_slash] at hrest
      rw [pathOf_cons, components_word hc, hrest]

theorem noNull_pathOf (h : ∀ c ∈ names, Word c ∧ NoNull c) : NoNull (pathOf names) := by
  intro h0
  obtain ⟨c, hc, hmem⟩ := List.mem_flatMap.mp h0
  rcases List.mem_cons.mp hmem with hs | hmem
  · cases hs
  · exact (h c hc).2 hmem

theorem trailing_pathOf (h : ∀ c ∈ names, Word c ∧ NoNull c) : trailing (pathOf names) = false := by
  induction names with
  | nil => rfl
  | cons c names ih =>
    have hc := (h c (List.mem_cons_self ..)).1
    have hrest := ih fun c hc => h c (List.mem_cons_of_mem _ hc)
    obtain ⟨b, c', rfl⟩ := List.exists_cons_of_ne_nil hc.1
    rw [pathOf_cons, List.cons_append, trailing_cons]
    cases names with
    | nil =>
      rw [pathOf_nil, List.append_nil]
      exact trailing_word hc.2
    | cons d names =>
      rw [← List.cons_append, trailing_append _ (by simp)]
      exact hrest

/-- The buffer has this string. -/
def Reads (path : Nat → Nat) (s : List Nat) : Prop := ∀ i, i ≤ s.length → path i = cstr s i

/-! ## Writing the names -/

/-- A name is copied as a whole: as an `int` the room for it is not negative, and not less
than its length. -/
def Copied (name : List Nat) (room : Nat) : Prop :=
  name.length < 2 ^ 31 ∧ name.length ≤ room % 2 ^ 32 ∧ room % 2 ^ 32 < 2 ^ 31

def AllCopied (pathLen : Nat) : List (List Nat) → Nat → Prop
  | [], _ => True
  | name :: names, offset => Copied name (pathLen - (offset + 1)) ∧
      AllCopied pathLen names (offset + 1 + name.length)

theorem minInt_of_copied {name : List Nat} {room : Nat} (h : Copied name room) :
    minInt name.length room = name.length := by
  obtain ⟨h1, h2, h3⟩ := h
  have ha := toInt32_nat name.length
  have hb := toInt32_nat room
  rw [if_pos (by omega)] at ha
  rw [if_pos h3] at hb
  unfold minInt
  split <;> omega

theorem minInt_of_not_copied {name : List Nat} {room : Nat} (h : ¬Copied name room) :
    minInt name.length room < name.length := by
  unfold Copied at h
  have ha := toInt32_nat name.length
  have hb := toInt32_nat room
  unfold minInt
  split at ha <;> split at hb <;> split <;> omega

theorem put_eq (path : Nat → Nat) {bytes : List Nat} (h : offset + bytes.length ≤ size) : ∃ path',
    put size path offset bytes = some path' ∧
      (∀ i, i < bytes.length → path' (offset + i) = cstr bytes i) ∧
      ∀ i, i < offset ∨ offset + bytes.length ≤ i → path' i = path i := by
  refine ⟨_, if_pos h, fun i hi => ?_, fun i hi => ?_⟩
  · rw [if_pos (by omega), Nat.add_sub_cancel_left]
    rfl
  · rw [if_neg (by omega)]

theorem room_behind {name : List Nat} (hname : name ≠ [])
    (hroom : offset + (pathOf (name :: names)).length ≤ pathLen) : offset + 1 < pathLen := by
  have hlen : 0 < name.length := List.length_pos_iff.mpr hname
  simp only [pathOf_cons, List.length_cons, List.length_append] at hroom
  omega

/-- As an `int` the room is not more than it is. -/
theorem minInt_le_room {len room count : Nat} (h : minInt len room = (count : Int)) :
    count ≤ room := by
  have hb := toInt32_nat room
  unfold minInt at h
  split at hb <;> split at h <;> omega

/-- One round of the loop, in a buffer with room behind the delimiter. -/
theorem writeNames_cons (name : List Nat) (hroom : offset + 1 < pathLen) (hsize : pathLen ≤ size) :
    (minInt name.length (pathLen - (offset + 1) : Nat) < 0 ∧
      writeNames size pathLen (name :: names) offset path = none) ∨
    ∃ (count : Nat) (path₁ : Nat → Nat),
      minInt name.length (pathLen - (offset + 1) : Nat) = (count : Int) ∧
      writeNames size pathLen (name :: names) offset path =
        writeNames size pathLen names (offset + 1 + name.length) path₁ ∧
      path₁ offset = SLASH ∧
      (∀ i, i < name.length → i < count → path₁ (offset + 1 + i) = cstr name i) ∧
      ∀ i, i < offset ∨ offset + 1 + min count name.length ≤ i → path₁ i = path i := by
  rw [writeNames, if_neg (by omega)]
  obtain ⟨path₀, hput, hslash, hsame⟩ := put_eq path
    (show offset + [SLASH].length ≤ size by simp; omega)
  simp only [hput, Option.bind_eq_bind, Option.bind_some]
  rw [if_neg (by omega)]
  by_cases hneg : minInt name.length (pathLen - (offset + 1) : Nat) < 0
  · exact .inl ⟨hneg, by rw [if_pos hneg]; rfl⟩
  · obtain ⟨count, hcount⟩ := Int.eq_ofNat_of_zero_le (Int.not_lt.mp hneg)
    have hle := minInt_le_room hcount
    obtain ⟨path₁, hput₁, hbytes, hsame₁⟩ := put_eq path₀
      (show offset + 1 + (name.take count).length ≤ size by rw [List.length_take]; omega)
    refine .inr ⟨count, path₁, hcount, ?_, ?_, fun i hi hic => ?_, fun i hi => ?_⟩
    · rw [if_neg hneg, hcount, Int.toNat_natCast]
      simp [hput₁]
    · rw [hsame₁ offset (.inl (by omega))]
      exact hslash 0 (by simp)
    · rw [hbytes i (by rw [List.length_take]; omega)]
      simp [cstr, List.getD_eq_getElem?_getD, hic]
    · rw [List.length_take] at hsame₁
      rw [hsame₁ i (by omega), hsame i (by simp; omega)]

theorem put_before {bytes : List Nat} (h : put size path offset bytes = some path') {i : Nat}
    (hi : i < offset) : path' i = path i := by
  unfold put at h
  split at h
  · cases h
    exact if_neg (by omega)
  · cases h

/-- A null stays one when the path is terminated, and the null behind the path is in the
buffer. -/
theorem put_null (h : put size path offset [0] = some path') :
    offset + 1 ≤ size ∧ ∀ i, path i = 0 → path' i = 0 := by
  unfold put at h
  split at h
  · rename_i hin
    cases h
    refine ⟨hin, fun i hi => ?_⟩
    simp only
    split
    · have hzero : i - offset = 0 := by
        simp only [List.length_singleton] at *
        omega
      rw [hzero]
      rfl
    · exact hi
  · cases h

/-- The bytes before the offset stay. -/
theorem writeNames_before {o : Nat}
    (h : writeNames size pathLen names offset path = some (o, path')) :
    ∀ i, i < offset → path' i = path i := by
  induction names generalizing offset path with
  | nil =>
    cases h
    exact fun i _ => rfl
  | cons name names ih =>
    rw [writeNames] at h
    split at h
    · cases h
      exact fun i _ => rfl
    · simp only [Option.bind_eq_bind, Option.bind_eq_some_iff] at h
      obtain ⟨path₀, hput, h⟩ := h
      split at h
      · cases h
        exact fun i hi => put_before hput hi
      · split at h
        · cases h
        · obtain ⟨path₁, hput₁, h⟩ := Option.bind_eq_some_iff.mp h
          intro i hi
          rw [ih h i (by omega), put_before hput₁ (by omega), put_before hput hi]

/-- With no room left the loop ends where it is. -/
theorem writeNames_stop (h : pathLen ≤ offset) (names : List (List Nat)) :
    writeNames size pathLen names offset path = some (offset, path) := by
  cases names with
  | nil => rfl
  | cons name names => rw [writeNames, if_pos h]

/-- With room for a delimiter only the loop ends behind it. -/
theorem writeNames_delimiter (h : pathLen = offset + 1) (hsize : pathLen ≤ size)
    (name : List Nat) (names : List (List Nat)) (path : Nat → Nat) : ∃ path',
      writeNames size pathLen (name :: names) offset path = some (pathLen, path') ∧
        path' offset = SLASH ∧ ∀ i, i < offset → path' i = path i := by
  obtain ⟨path', hput, hslash, hsame⟩ := put_eq path
    (show offset + [SLASH].length ≤ size by simp; omega)
  refine ⟨path', ?_, hslash 0 (by simp), fun i hi => hsame i (.inl hi)⟩
  rw [writeNames, if_neg (by omega)]
  simp only [hput, Option.bind_eq_bind, Option.bind_some]
  rw [if_pos (by omega), h]
  rfl

/-- The names that are written fit: there are no more of them, or the room ends here or
behind the delimiter, or the next one is copied as a whole, and so on. -/
def PathFits (pathLen : Nat) : List (List Nat) → Nat → Prop
  | [], _ => True
  | name :: names, offset => pathLen = offset ∨ pathLen = offset + 1 ∨
      Copied name (pathLen - (offset + 1)) ∧ PathFits pathLen names (offset + 1 + name.length)

/-- The bytes from `offset` on are those of the path, as far as there is room. -/
structure Written (pathLen offset : Nat) (full : List Nat) (path' : Nat → Nat) (o : Nat) : Prop where
  stop : o = min pathLen (offset + full.length)
  bytes : ∀ i, offset + i < o → path' (offset + i) = cstr full i

/-- **Names that fit make the path**, as far as there is room. -/
theorem writeNames_fits (hle : offset ≤ pathLen) (hsize : pathLen ≤ size)
    (h : PathFits pathLen names offset) (path : Nat → Nat) : ∃ o path',
      writeNames size pathLen names offset path = some (o, path') ∧
        Written pathLen offset (pathOf names) path' o := by
  induction names generalizing offset path with
  | nil => exact ⟨offset, path, rfl, by simp [hle], fun i hi => absurd hi (by omega)⟩
  | cons name names ih =>
    by_cases hfull : pathLen = offset
    · refine ⟨offset, path, writeNames_stop (Nat.le_of_eq hfull) _, ?_, fun i hi => ?_⟩
      · omega
      · omega
    by_cases hdelimiter : pathLen = offset + 1
    · obtain ⟨path', hpath, hslash, -⟩ := writeNames_delimiter hdelimiter hsize name names path
      refine ⟨pathLen, path', hpath, ?_, fun i hi => ?_⟩
      · rw [pathOf_cons, List.length_cons]
        omega
      · obtain rfl : i = 0 := by omega
        exact hslash
    obtain ⟨hcopied, hrest⟩ := (h.resolve_left hfull).resolve_left hdelimiter
    have hmin := minInt_of_copied hcopied
    have hlen : offset + 1 + name.length ≤ pathLen := by
      have := Nat.le_trans hcopied.2.1 (Nat.mod_le _ _)
      omega
    rcases writeNames_cons name (show offset + 1 < pathLen by omega) hsize with
      ⟨hneg, -⟩ | ⟨count, path₁, hcount, hrec, hslash, hname, -⟩
    · omega
    · obtain rfl : count = name.length := by omega
      obtain ⟨o, path', hpath, hstop, hbytes⟩ := ih hlen hrest path₁
      have hbefore := writeNames_before hpath
      refine ⟨o, path', hrec.trans hpath, ?_, fun i hi => ?_⟩
      · rw [pathOf_cons, List.length_cons, List.length_append]
        omega
      -- the delimiter, the name, and the names after it
      rw [pathOf_cons]
      cases i with
      | zero =>
        rw [hbefore _ (by omega)]
        exact hslash
      | succ i =>
        have hcons : cstr (SLASH :: (name ++ pathOf names)) (i + 1) =
            cstr (name ++ pathOf names) i := rfl
        rw [hcons]
        by_cases hin : i < name.length
        · rw [hbefore _ (by omega), show offset + (i + 1) = offset + 1 + i by omega,
            hname i hin hin, cstr, cstr, List.getD_append _ _ _ _ hin]
        · have hb := hbytes (i - name.length) (by omega)
          rw [show offset + (i + 1) = offset + 1 + name.length + (i - name.length) by omega, hb,
            cstr, cstr, List.getD_append_right _ _ _ _ (by omega)]

/-- The offset does not go back. -/
theorem writeNames_offset {o : Nat}
    (h : writeNames size pathLen names offset path = some (o, path')) : offset ≤ o := by
  induction names generalizing offset path with
  | nil =>
    cases h
    exact Nat.le_refl _
  | cons name names ih =>
    rw [writeNames] at h
    split at h
    · cases h
      exact Nat.le_refl _
    · simp only [Option.bind_eq_bind, Option.bind_eq_some_iff] at h
      obtain ⟨path₀, -, h⟩ := h
      split at h
      · cases h
        exact Nat.le_succ _
      · split at h
        · cases h
        · obtain ⟨path₁, -, h⟩ := Option.bind_eq_some_iff.mp h
          have hle := ih h
          omega

/-- **A name that does not fit** leaves the offset behind the room, or a byte of the path as it
was. -/
theorem writeNames_cut (hle : offset ≤ pathLen) (hsize : pathLen ≤ size)
    (hn : ¬PathFits pathLen names offset) {o : Nat}
    (h : writeNames size pathLen names offset path = some (o, path')) :
    pathLen < o ∨ ∃ i, offset + i < pathLen ∧ offset + i < o ∧ i < (pathOf names).length ∧
      path' (offset + i) = path (offset + i) := by
  induction names generalizing offset path with
  | nil => exact absurd trivial hn
  | cons name names ih =>
    rw [PathFits, not_or, not_or] at hn
    obtain ⟨hfull, hdelimiter, hn⟩ := hn
    rcases writeNames_cons name (show offset + 1 < pathLen by omega) hsize with
      ⟨-, hnone⟩ | ⟨count, path₁, hcount, hrec, hslash, -, hsame⟩
    · rw [hnone] at h
      cases h
    rw [hrec] at h
    simp only [pathOf_cons, List.length_cons, List.length_append]
    by_cases hlen : offset + 1 + name.length ≤ pathLen
    · by_cases hcopied : Copied name (pathLen - (offset + 1))
      · have hmin := minInt_of_copied hcopied
        rcases ih hlen (fun hrest => hn ⟨hcopied, hrest⟩) h with
          hout | ⟨i, hi, hio, hlt, hkept⟩
        · exact .inl hout
        · refine .inr ⟨1 + name.length + i, by omega, by omega, by omega, ?_⟩
          rw [← Nat.add_assoc, ← Nat.add_assoc, hkept]
          exact hsame _ (by omega)
      · have hmin := minInt_of_not_copied hcopied
        have hoffset := writeNames_offset h
        refine .inr ⟨1 + count, by omega, by omega, by omega, ?_⟩
        rw [writeNames_before h _ (by omega)]
        exact hsame _ (by omega)
    · rw [writeNames_stop (by omega)] at h
      cases h
      exact .inl (by omega)

/-- In a buffer for the whole path all of the names have to be copied. -/
theorem pathFits_iff_allCopied (hw : ∀ c ∈ names, Word c ∧ NoNull c)
    (hroom : offset + (pathOf names).length ≤ pathLen) :
    PathFits pathLen names offset ↔ AllCopied pathLen names offset := by
  induction names generalizing offset with
  | nil => exact Iff.rfl
  | cons name names ih =>
    have hbehind := room_behind (hw name (List.mem_cons_self ..)).1.1 hroom
    simp only [pathOf_cons, List.length_cons, List.length_append] at hroom
    rw [PathFits, AllCopied, ih (fun c hc => hw c (List.mem_cons_of_mem _ hc)) (by omega)]
    constructor
    · rintro (h | h | h)
      · omega
      · omega
      · exact h
    · exact fun h => .inr (.inr h)

/-- **Names that are copied as a whole make the path.** -/
theorem writeNames_eq (path : Nat → Nat) (hw : ∀ c ∈ names, Word c ∧ NoNull c)
    (hroom : offset + (pathOf names).length ≤ pathLen) (hsize : pathLen ≤ size)
    (h : AllCopied pathLen names offset) : ∃ path',
      writeNames size pathLen names offset path = some (offset + (pathOf names).length, path') ∧
      ∀ i, i < (pathOf names).length → path' (offset + i) = cstr (pathOf names) i := by
  obtain ⟨o, path', hpath, hstop, hbytes⟩ := writeNames_fits (show offset ≤ pathLen by omega) hsize
    ((pathFits_iff_allCopied hw hroom).mpr h) path
  obtain rfl : o = offset + (pathOf names).length := by omega
  exact ⟨path', hpath, fun i hi => hbytes i (by omega)⟩

/-- A buffer of at most 2^31 bytes has no such names. -/
theorem allCopied_small (hw : ∀ c ∈ names, Word c ∧ NoNull c)
    (hroom : offset + (pathOf names).length ≤ pathLen) (hsmall : pathLen < 2 ^ 31) :
    AllCopied pathLen names offset := by
  induction names generalizing offset with
  | nil => trivial
  | cons name names ih =>
    have hwords := fun c hc => hw c (List.mem_cons_of_mem _ hc)
    simp only [pathOf_cons, List.length_cons, List.length_append] at hroom
    have hmod : (pathLen - (offset + 1)) % 2 ^ 32 = pathLen - (offset + 1) :=
      Nat.mod_eq_of_lt (by omega)
    refine ⟨⟨by omega, ?_, ?_⟩, ih hwords (by omega)⟩
    · rw [hmod]
      omega
    · rw [hmod]
      omega

/-! ## The answer -/

variable {behind : Nat → List Nat} {s : Manager} {index : Nat}

/-- Names are read as the strings they were created from. -/
def ReadAsCreated (behind : Nat → List Nat) (list : List Entry) : Prop :=
  ∀ dev ∈ records list, dev.text behind = dev.name

theorem mem_ofType : p ∈ ofType type list ↔ p ∈ places list ∧ p.record.type = type := by
  simp [ofType]

/-- The names of the device and of those above it are written, and a null behind them. -/
theorem generate_of_hierarchy {root : List Entry} {dev : Record} {up : List Record}
    (hup : hierarchy root ((records root).length + 1) dev = some up) (hpos : 1 ≤ size)
    (hsize : size < 2 ^ 64) :
    deviceGeneratePathOf behind root dev path size =
      (writeNames size (size - 1) (up.reverse.map (Record.text behind)) 0 path).bind
        fun (offset, path) => put size path offset [0] := by
  have hpathLen : (size + 2 ^ 64 - 1) % 2 ^ 64 = size - 1 := by omega
  unfold deviceGeneratePathOf
  simp only [hup, Option.bind_eq_bind, Option.bind_some, hpathLen]

/-- The names that are written are the ones of the path. -/
theorem generate_eq (hi : TreeInv s) (hread : ReadAsCreated behind s.list)
    (hp : p ∈ ofType type s.list) (ht : type ≠ .reserved) (hsize : size < 2 ^ 64)
    (hlong : (pathOf p.path).length + 1 ≤ size) :
    deviceGeneratePathOf behind s.list p.record path size =
      (writeNames size (size - 1) p.path 0 path).bind fun (offset, path) =>
        put size path offset [0] := by
  obtain ⟨hplace, htype⟩ := mem_ofType.mp hp
  obtain ⟨trail, htrail, hnames⟩ := exists_trail hplace
  have hclimbs := (hi.sound.climbs_or (fun r hr => hr) (.inl ⟨rfl, rfl⟩) htrail).resolve_right
    fun hdummy => ht (htype ▸ hdummy.1)
  rw [List.append_nil] at hclimbs
  have hup := hclimbs.hierarchy hi.counted.1 (length_trail htrail)
  have htexts : trail.map (Record.text behind) = trail.map (·.name) :=
    List.map_congr_left fun r hr => hread r (htrail.records r hr)
  have hreverse : trail.reverse.reverse.map (Record.text behind) = p.path := by
    rw [List.reverse_reverse, htexts, hnames]
  rw [generate_of_hierarchy hup (by omega) hsize, hreverse]

theorem deviceGetByType_eq (h : (ofType type s.list)[index]? = some p) :
    deviceGetByType behind s.list type path size index =
      (deviceGeneratePathOf behind s.list p.record path size).map some := by
  rw [deviceGetByType, getByTypeRecursive_eq, pick, h]

theorem deviceGetByType_null (h : (ofType type s.list).length ≤ index) :
    deviceGetByType behind s.list type path size index = some none := by
  rw [deviceGetByType, getByTypeRecursive_eq, pick, List.getElem?_eq_none h]

theorem place_words (hi : TreeInv s) (hp : p ∈ ofType type s.list) (ht : type ≠ .reserved) :
    p.path ≠ [] ∧ ∀ c ∈ p.path, Word c ∧ NoNull c := by
  obtain ⟨hplace, htype⟩ := mem_ofType.mp hp
  obtain ⟨-, hne, hwords, -⟩ := hi.sound.opens hplace (htype ▸ ht) 0
  exact ⟨hne, hwords⟩

/-- **The answer is the path of the device**, when its names are copied as a whole. -/
theorem getByType_reads (hi : TreeInv s) (hread : ReadAsCreated behind s.list)
    (h : (ofType type s.list)[index]? = some p) (ht : type ≠ .reserved) (hsize : size < 2 ^ 64)
    (hlong : (pathOf p.path).length + 1 ≤ size)
    (hcopied : AllCopied (size - 1) p.path 0) (path : Nat → Nat) :
    ∃ path', deviceGetByType behind s.list type path size index = some (some path') ∧
      Reads path' (pathOf p.path) := by
  have hp := List.mem_of_getElem? h
  have hwords := (place_words hi hp ht).2
  obtain ⟨path₁, hwrite, hbytes⟩ :=
    writeNames_eq path hwords (show 0 + _ ≤ size - 1 by omega) (Nat.sub_le ..) hcopied
  obtain ⟨path₂, hput, hnull, hsame⟩ := put_eq path₁
    (show 0 + (pathOf p.path).length + [0].length ≤ size by simp; omega)
  refine ⟨path₂, ?_, fun i hi' => ?_⟩
  · rw [deviceGetByType_eq h, generate_eq hi hread hp ht hsize hlong, hwrite]
    simp only [Option.bind_some, hput, Option.map_some]
  · by_cases hlast : i = (pathOf p.path).length
    · subst hlast
      have h0 := hnull 0 (by simp)
      rw [Nat.zero_add, Nat.add_zero] at h0
      rw [h0, cstr, cstr, List.getD_eq_default _ _ (Nat.le_refl _)]
      rfl
    · rw [hsame i (by omega), ← hbytes i (by omega), Nat.zero_add]

/-- In a buffer that is clear another string is left, or none. -/
theorem getByType_cut (hi : TreeInv s) (hread : ReadAsCreated behind s.list)
    (h : (ofType type s.list)[index]? = some p) (ht : type ≠ .reserved) (hsize : size < 2 ^ 64)
    (hlong : (pathOf p.path).length + 1 ≤ size)
    (hn : ¬AllCopied (size - 1) p.path 0) {path' : Nat → Nat}
    (hget : deviceGetByType behind s.list type (fun _ => 0) size index = some (some path')) :
    ¬Reads path' (pathOf p.path) := by
  have hp := List.mem_of_getElem? h
  have hwords := (place_words hi hp ht).2
  rw [deviceGetByType_eq h, generate_eq hi hread hp ht hsize hlong] at hget
  simp only [Option.map_eq_some_iff, Option.bind_eq_some_iff, Prod.exists, Option.some.injEq,
    exists_eq_right] at hget
  obtain ⟨offset, path₁, hwrite, hput⟩ := hget
  have hroom : 0 + (pathOf p.path).length ≤ size - 1 := by omega
  have hcut : ¬PathFits (size - 1) p.path 0 :=
    fun h => hn ((pathFits_iff_allCopied hwords hroom).mp h)
  obtain ⟨hin, hzero⟩ := put_null hput
  obtain hout | ⟨i, -, -, hlt, hnull⟩ :=
    writeNames_cut (Nat.zero_le _) (Nat.sub_le ..) hcut hwrite
  · omega
  · intro hreads
    have hi := hreads i (by omega)
    rw [Nat.zero_add] at hnull
    rw [hzero i hnull] at hi
    exact cstr_ne_zero (noNull_pathOf hwords) hlt hi.symm

end GaOS.L4.Devices
