import GaOS.L4Files.DeviceRuns
import GaOS.L4Files.DeviceTree

/-!
# Paths of devices

What a call of `device_create_at` does to the tree with types and parents, on the components
of its path (`Creates`), and what every tree that was built so has in common:

* The devices of a list have the device above it as their parent, but for the dummy of a
  directory that nothing was put into; and of the devices with one name only the first one
  has something below it, or is anything but a directory (`Sound`).
* Addresses are given out once (`Counted`).

So the parents of a device are what stands on its path (`Sound.climbs_or`), and its path leads
back to it (`Sound.opens`).
-/
namespace GaOS.L4.Devices
open GaOS.L4.Files

/-! ## One call -/

/-- A call goes down the components of its path; `t` is the trailing delimiter. -/
inductive Creates (behind : Nat → List Nat) (type : DeviceType) (callbacks : Callbacks) (t : Bool) :
    List (List Nat) → List Entry → Counts → List Entry → Counts → Prop
  | nothing {list : List Entry} {n : Counts} : Creates behind type callbacks t [] list n list n
  | refused {c : List Nat} {list : List Entry} {n : Counts} :
      list.any (clashes behind (ending t c)) = true → Creates behind type callbacks t [c] list n list n
  | last {c : List Nat} {list : List Entry} {before : Entry} {n : Counts} :
      list.any (clashes behind (ending t c)) = false → list.getLast? = some before →
      Creates behind type callbacks t [c] list n
        (list ++ [(newDevice (ending t c) type callbacks before.record.parent n).1])
        (newDevice (ending t c) type callbacks before.record.parent n).2
  | found {c : List Nat} {cs : List (List Nat)} {list child : List Entry} {dev : Entry}
      {n n' : Counts} : cs ≠ [] → list.find? (·.record.name = c) = some dev →
      Creates behind type callbacks t cs (adopt dev.record.address dev.children n).1
        (adopt dev.record.address dev.children n).2 child n' →
      Creates behind type callbacks t (c :: cs) list n (setChildren c child list) n'
  | missing {c : List Nat} {cs : List (List Nat)} {list child : List Entry} {before : Entry}
      {n n' : Counts} : cs ≠ [] → list.find? (·.record.name = c) = none →
      list.any (clashes behind c) = false → list.getLast? = some before →
      Creates behind type callbacks t cs
        [allocateDummy (n.dummies + 1) (some (.device (n.devices + 1)))]
        ⟨n.devices + 1, n.dummies + 1⟩ child n' →
      Creates behind type callbacks t (c :: cs) list n (list ++
        [.mk (allocateDevice (n.devices + 1) c .reserved reserved before.record.parent) child]) n'

variable {behind : Nat → List Nat} {type : DeviceType} {callbacks : Callbacks} {t : Bool}
  {c path : List Nat}
  {cs : List (List Nat)} {list list' : List Entry} {n n' : Counts} {answer : Option Record}

/-- `createIn` on the components of the path. -/
def createNames (behind : Nat → List Nat) (type : DeviceType) (callbacks : Callbacks) (t : Bool) :
    List (List Nat) → List Entry → Counts → Created
  | [], list, n => .ok (none, list, n)
  | [c], list, n => createLast behind type callbacks (ending t c) list n
  | c :: cs, list, n =>
    match list.find? (·.record.name = c) with
    | some dev => do
      let (child, n) := adopt dev.record.address dev.children n
      let (answer, child, n) ← createNames behind type callbacks t cs child n
      return (answer, setChildren c child list, n)
    | none =>
      if list.any (clashes behind c) then .error .wild
      else do
        let new := allocateDevice (n.devices + 1) c .reserved reserved
          (list.getLast?.bind (·.record.parent))
        let (answer, child, n) ← createNames behind type callbacks t cs
          [allocateDummy (n.dummies + 1) (some (.device (n.devices + 1)))]
          ⟨n.devices + 1, n.dummies + 1⟩
        return (answer, list ++ [.mk new child], n)

/-- **Creating looks at the components**, and at the trailing delimiter. -/
theorem createIn_names {rounds : Nat} (hs : Sanitised path) (hr : path.length < rounds)
    (hne : list ≠ []) : createIn behind type callbacks rounds path list n =
      createNames behind type callbacks (trailing path) (components path) list n := by
  have hw := walk_of (.inl hs) hr
  clear hs hr
  induction hw generalizing list n with
  | done rounds => rfl
  | @slash rounds r _ ih =>
    rw [createIn, components_slash]
    simp only [dirOf_slash, List.tail_cons, reduceCtorEq, if_true, if_false, ih hne]
    cases r with
    | nil => rfl
    | cons b r => rw [trailing_cons]
  | last hd h0 hpath hc ht =>
    rw [createIn]
    simp only [if_neg (ne_nil_of_dirOf hd), if_neg hd, h0]
    rw [hc, ht, if_neg (by simp), createNames, ending, if_neg (by simp), ← hpath]
  | ended hd h0 hpath hc ht =>
    rw [createIn]
    simp only [if_neg (ne_nil_of_dirOf hd), if_neg hd, h0]
    rw [hc, ht, if_neg (by simp), createNames, ending, if_pos rfl, ← hpath]
  | @dir rounds path b r hd h0 hc ht hrest _ ih =>
    rw [createIn]
    simp only [if_neg (ne_nil_of_dirOf hd), if_neg hd, h0]
    rw [hc, ht, if_pos (by simp), createNames]
    · cases hf : list.find? (·.record.name = dirOf path) with
      | some dev => simp only [List.tail_cons, ih (adopt_ne_nil _ _ _)]
      | none =>
        simp only [createLast_dir (slash_notMem_dirOf path) hne, List.tail_cons]
        split
        · rfl
        · -- the new directory is the only one of that name
          have hnew : ∀ child, setChildren (dirOf path) child (list ++ [.mk (allocateDevice
              (n.devices + 1) (dirOf path) .reserved reserved
                (list.getLast hne).record.parent) []]) = _ :=
            fun child => setChildren_new rfl hf
          rw [List.getLast?_eq_some_getLast hne, ← ih (by simp)]
          simp only [bind, Except.bind, adopt, hnew, Option.bind]
          rfl
    · exact hrest

theorem deviceCreateAt_names (hnull : NoNull path) (hlen : path.length < 2 ^ 31)
    (hne : list ≠ []) : deviceCreateAt behind path type callbacks list n =
      createNames behind type callbacks (trailing path) (components path) list n := by
  have hc := components_sanatisePath path
  have hs := (sanitised_sanatisePath path).skip_slash
  rw [deviceCreateAt, sanatisedCopy_eq hnull hlen]
  simp only
  rw [createIn_names hs (Nat.lt_succ_of_le (skip_slash_length _)) hne, components_skip_slash, hc]
  by_cases hnil : components path = []
  · rw [hnil]
    rfl
  · rw [(skip_slash _ (by rwa [hc])).2, trailing_sanatisePath]

theorem createLast_creates (hne : list ≠ [])
    (h : createLast behind type callbacks (ending t c) list n = .ok (answer, list', n')) :
    Creates behind type callbacks t [c] list n list' n' := by
  unfold createLast at h
  rw [List.getLast?_eq_some_getLast hne] at h
  split at h
  · rename_i hc
    cases h
    exact .refused hc
  · rename_i hc
    simp only at h
    split at h
    · cases h
    · cases h
      exact .last (by simpa using hc) (List.getLast?_eq_some_getLast hne)

/-- **What a call does**, when it comes back. -/
theorem createNames_creates (hne : list ≠ [])
    (h : createNames behind type callbacks t cs list n = .ok (answer, list', n')) :
    Creates behind type callbacks t cs list n list' n' := by
  induction cs generalizing list list' n with
  | nil =>
    cases h
    exact .nothing
  | cons c cs ih =>
    by_cases hcs : cs = []
    · subst hcs
      exact createLast_creates hne h
    rw [createNames] at h
    · cases hf : list.find? (·.record.name = c) with
      | some dev =>
        rw [hf] at h
        obtain ⟨⟨a, child, m⟩, hrec, he⟩ := bind_ok h
        cases he
        exact .found hcs hf (ih (adopt_ne_nil _ _ _) hrec)
      | none =>
        rw [hf, List.getLast?_eq_some_getLast hne] at h
        simp only at h
        split at h
        · cases h
        · rename_i hno
          obtain ⟨⟨a, child, m⟩, hrec, he⟩ := bind_ok h
          cases he
          exact .missing hcs hf (by simpa using hno) (List.getLast?_eq_some_getLast hne)
            (ih (by simp) hrec)
    · exact hcs

theorem deviceCreateAt_creates (hnull : NoNull path) (hne : list ≠ [])
    (h : deviceCreateAt behind path type callbacks list n = .ok (answer, list', n')) :
    Creates behind type callbacks (trailing path) (components path) list n list' n' := by
  have hfiles : (deviceCreateAt behind path type callbacks list n).map forget =
      Files.deviceCreateAt behind path callbacks (devices list) n.devices :=
    devices_deviceCreateAt hne
  rw [h] at hfiles
  exact createNames_creates hne
    (deviceCreateAt_names hnull (deviceCreateAt_length hnull hfiles.symm) hne ▸ h)

/-! ## Places -/

@[simp] theorem places_append (list list' : List Entry) :
    places (list ++ list') = places list ++ places list' := by
  induction list with
  | nil => rfl
  | cons e list ih => rw [List.cons_append, places, places, ih, List.append_assoc]

theorem mem_places {p : Place} {list : List Entry} : p ∈ places list ↔ ∃ e ∈ list,
    p = ⟨e.record, [e.record.name]⟩ ∨ ∃ q ∈ places e.children, p = q.below e.record.name := by
  induction list with
  | nil => simp [places]
  | cons e list ih =>
    obtain ⟨dev, children⟩ := e
    rw [places, List.mem_append, ih, List.exists_mem_cons_iff]
    simp [Entry.places, Entry.record, Entry.children, eq_comm]

@[simp] theorem records_nil : records [] = [] := rfl

@[simp] theorem records_append (list list' : List Entry) :
    records (list ++ list') = records list ++ records list' := by simp [records]

@[simp] theorem records_cons (dev : Record) (children list : List Entry) :
    records (.mk dev children :: list) = dev :: (records children ++ records list) := by
  simp [records, places, Entry.places, Place.below]

/-! ## Parents and names -/

/-- A list that nothing was put into: a dummy that has no parent yet, if there is one. -/
def Bare (list : List Entry) : Prop := list = [] ∨ ∃ number, list = [allocateDummy number none]

/-- A directory that no walk goes into. -/
def Idle (e : Entry) : Prop := e.record.type = .reserved ∧ Bare e.children

/-- The devices of a list have the same parent, and of those with the same name the first
one is in use; and so on below. -/
inductive Sound : Option Address → List Entry → Prop
  | mk {owner : Option Address} {list : List Entry} :
      (∀ e ∈ list, e.record.parent = owner ∧ (Word e.record.name ∧ NoNull e.record.name) ∧
        (e.record.type ≠ .reserved → ∃ number, e.record.address = .device number)) →
      list.Pairwise (fun d e => d.record.name = e.record.name → Idle e) →
      (∀ e ∈ list, ¬Bare e.children → Sound (some e.record.address) e.children) → Sound owner list

variable {owner : Option Address} {e : Entry}

theorem Sound.parent (h : Sound owner list) (he : e ∈ list) : e.record.parent = owner := by
  cases h with
  | mk hp _ _ => exact (hp e he).1

theorem Sound.inside (h : Sound owner list) (he : e ∈ list) (hb : ¬Bare e.children) :
    Sound (some e.record.address) e.children := by
  cases h with
  | mk _ _ hbelow => exact hbelow e he hb

theorem word_dot : Word [DOT] ∧ NoNull [DOT] := by
  simp [Word, NoNull, DOT, SLASH]

theorem sound_dummy (number : Nat) (owner : Option Address) :
    Sound owner [allocateDummy number owner] := by
  refine .mk ?_ (List.pairwise_singleton ..) ?_
  · intro e he
    rw [List.mem_singleton.mp he]
    exact ⟨rfl, word_dot, fun hr => absurd rfl hr⟩
  · intro e he
    rw [List.mem_singleton.mp he]
    exact fun hbare => absurd (.inl rfl) hbare

/-- Going down sets the parent of the list. -/
theorem sound_adopt (n : Counts) (h : ¬Bare e.children → Sound (some e.record.address) e.children) :
    Sound (some e.record.address) (adopt e.record.address e.children n).1 := by
  by_cases hbare : Bare e.children
  · rcases hbare with hnil | ⟨number, hdummy⟩
    · rw [hnil]
      exact sound_dummy _ _
    · rw [hdummy]
      exact sound_dummy _ _
  · have hs := h hbare
    cases hc : e.children with
    | nil => exact sound_dummy _ _
    | cons head list =>
      rw [hc] at hs
      obtain ⟨head, below⟩ := head
      have hparent : head.parent = some e.record.address := hs.parent (List.mem_cons_self ..)
      have hsame : { head with parent := some e.record.address } = head := by rw [← hparent]
      rw [adopt, hsame]
      exact hs

/-- Where the first device of that name is. -/
theorem setChildren_split (hf : list.find? (·.record.name = c) = some e) : ∃ before after,
    list = before ++ e :: after ∧ e.record.name = c ∧ (∀ d ∈ before, d.record.name ≠ c) ∧
      ∀ children, setChildren c children list = before ++ .mk e.record children :: after := by
  obtain ⟨before, after, he, hname, hb, hupdate⟩ := updateFirst_split hf
  exact ⟨before, after, he, by simpa using hname, fun d hd => by simpa using hb d hd,
    fun children => hupdate _⟩

/-- New children for the first device of a name. -/
theorem Sound.setChildren {children : List Entry} (h : Sound owner list)
    (hf : list.find? (·.record.name = c) = some e)
    (hc : Sound (some e.record.address) children) : Sound owner (setChildren c children list) := by
  obtain ⟨before, after, rfl, hname, hb, hset⟩ := setChildren_split hf
  rw [hset]
  cases h with
  | mk hp hpair hbelow =>
    rw [List.pairwise_append, List.pairwise_cons] at hpair
    obtain ⟨h1, ⟨h2, h3⟩, h4⟩ := hpair
    refine .mk (fun d hd => ?_) ?_ (fun d hd => ?_)
    · rcases List.mem_append.mp hd with hd | hd
      · exact hp d (List.mem_append_left _ hd)
      · rcases List.mem_cons.mp hd with rfl | hd
        · exact hp e (List.mem_append_right _ (List.mem_cons_self ..))
        · exact hp d (List.mem_append_right _ (List.mem_cons_of_mem _ hd))
    · rw [List.pairwise_append, List.pairwise_cons]
      refine ⟨h1, ⟨h2, h3⟩, fun d hd x hx => ?_⟩
      rcases List.mem_cons.mp hx with rfl | hx
      · exact fun he => absurd (he.trans hname) (hb d hd)
      · exact h4 d hd x (List.mem_cons_of_mem _ hx)
    · rcases List.mem_append.mp hd with hd | hd
      · exact hbelow d (List.mem_append_left _ hd)
      · rcases List.mem_cons.mp hd with rfl | hd
        · exact fun _ => hc
        · exact hbelow d (List.mem_append_right _ (List.mem_cons_of_mem _ hd))

/-- A new device at the end of a list. -/
theorem Sound.snoc (h : Sound owner list) (hparent : e.record.parent = owner)
    (hw : Word e.record.name ∧ NoNull e.record.name)
    (ha : ∃ number, e.record.address = .device number)
    (hnew : ∀ d ∈ list, d.record.name = e.record.name → Idle e)
    (hc : ¬Bare e.children → Sound (some e.record.address) e.children) :
    Sound owner (list ++ [e]) := by
  cases h with
  | mk hp hpair hbelow =>
    refine .mk (fun d hd => ?_) ?_ (fun d hd => ?_)
    · rcases List.mem_append.mp hd with hd | hd
      · exact hp d hd
      · rw [List.mem_singleton.mp hd]
        exact ⟨hparent, hw, fun _ => ha⟩
    · rw [List.pairwise_append]
      refine ⟨hpair, List.pairwise_singleton .., fun d hd x hx => ?_⟩
      rw [List.mem_singleton.mp hx]
      exact hnew d hd
    · rcases List.mem_append.mp hd with hd | hd
      · exact hbelow d hd
      · rw [List.mem_singleton.mp hd]
        exact hc

theorem name_prefix_text (dev : Record) : dev.name <+: dev.text behind := by
  unfold Record.text
  split
  · exact List.prefix_rfl
  · exact List.prefix_append _ _

/-- No sibling has the name of a new device, unless a delimiter is behind it. -/
theorem name_ne_of_clashes (hc : NoNull c) (hno : list.any (clashes behind c) = false) :
    ∀ d ∈ list, d.record.name ≠ c := by
  intro d hd hname
  have hclash : clashes behind c d = true := by
    unfold clashes
    rw [decide_eq_true_eq, strncmp_length_right hc]
    exact fun i hi => ((cstr_agree_iff hc).mpr (hname ▸ name_prefix_text d.record) i hi).symm
  rw [List.any_eq_false] at hno
  exact hno d hd hclash

theorem newDevice_record (type : DeviceType) (callbacks : Callbacks) (hw : Word c)
    (parent : Option Address) :
    (newDevice (ending t c) type callbacks parent n).1.record.name = c ∧
      (newDevice (ending t c) type callbacks parent n).1.record.parent = parent ∧
      (newDevice (ending t c) type callbacks parent n).1.record.type = type ∧
      (∃ number, (newDevice (ending t c) type callbacks parent n).1.record.address =
        .device number) ∧
      Bare (newDevice (ending t c) type callbacks parent n).1.children := by
  unfold newDevice ending
  cases t with
  | false => simp [trailing_word hw.2, allocateDevice, Entry.record, Entry.children, Bare]
  | true => simp [trailing, allocateDevice, Entry.record, Entry.children, Bare, allocateDummy]

/-- **A call keeps parents and names.** A device that is no directory is created without a
trailing delimiter. -/
theorem Creates.sound (h : Creates behind type callbacks t cs list n list' n')
    (hs : Sound owner list) (hw : ∀ c ∈ cs, Word c ∧ NoNull c) (ht : type ≠ .reserved → t = false) :
    Sound owner list' := by
  induction h generalizing owner with
  | nothing => exact hs
  | refused => exact hs
  | @last c list before n hno hlast =>
    obtain ⟨hc, hnull⟩ := hw c (List.mem_cons_self ..)
    obtain ⟨hname, hparent, htype, haddress, hbare⟩ :=
      newDevice_record (t := t) (n := n) type callbacks hc before.record.parent
    have howner := hs.parent (List.mem_of_getLast? hlast)
    refine hs.snoc (hparent.trans howner) (by rw [hname]; exact ⟨hc, hnull⟩) haddress
      (fun d hd he => ?_) (fun hno => absurd hbare hno)
    by_cases hr : type = .reserved
    · exact ⟨htype.trans hr, hbare⟩
    · -- without a delimiter there is no device of that name
      rw [ht hr] at hno
      exact absurd (he.trans hname) (name_ne_of_clashes hnull hno d hd)
  | @found c cs list child dev n n' hcs hf _ ih =>
    have hwords := fun c hc => hw c (List.mem_cons_of_mem _ hc)
    have hbelow := hs.inside (List.mem_of_find?_eq_some hf)
    exact hs.setChildren hf (ih (sound_adopt n hbelow) hwords)
  | @missing c cs list child before n n' hcs hf hno hlast _ ih =>
    obtain ⟨hc, hnull⟩ := hw c (List.mem_cons_self ..)
    have hwords := fun c hc => hw c (List.mem_cons_of_mem _ hc)
    have howner := hs.parent (List.mem_of_getLast? hlast)
    refine hs.snoc howner ⟨hc, hnull⟩ ⟨_, rfl⟩ (fun d hd he => ?_)
      fun _ => ih (sound_dummy _ _) hwords
    exact absurd he (name_ne_of_clashes hnull hno d hd)

theorem ends_adopt {children : List Entry} (address : Address) (n : Counts)
    (h : ∀ dev ∈ records children, dev.nameEnds = true) :
    ∀ dev ∈ records (adopt address children n).1, dev.nameEnds = true := by
  cases children with
  | nil => simp [adopt, allocateDummy]
  | cons e children =>
    obtain ⟨head, below⟩ := e
    simpa [adopt] using h

/-- Names whose length is no multiple of 16 have a null behind them. -/
theorem Creates.ends (h : Creates behind type callbacks t cs list n list' n')
    (hends : ∀ dev ∈ records list, dev.nameEnds = true)
    (hlen : ∀ c ∈ cs, c.length % 16 ≠ 0 ∧ (ending t c).length % 16 ≠ 0) :
    ∀ dev ∈ records list', dev.nameEnds = true := by
  induction h with
  | nothing => exact hends
  | refused => exact hends
  | @last c list before n hno hlast =>
    intro dev hd
    have hc := (hlen c (List.mem_cons_self ..)).2
    rw [records_append, List.mem_append] at hd
    rcases hd with hd | hd
    · exact hends dev hd
    · unfold newDevice at hd
      split at hd
      · simp only [records_cons, records_nil, allocateDummy, List.append_nil, List.mem_cons,
          List.not_mem_nil, or_false] at hd
        rcases hd with rfl | rfl
        · rfl
        · rfl
      · simp only [records_cons, records_nil, List.append_nil, List.mem_singleton] at hd
        rw [hd]
        simp [allocateDevice, endsInBlock, hc]
  | @found c cs list child dev n n' hcs hf _ ih =>
    have hlens := fun c hc => hlen c (List.mem_cons_of_mem _ hc)
    obtain ⟨before, after, rfl, -, -, hset⟩ := setChildren_split hf
    obtain ⟨r, children⟩ := dev
    rw [hset]
    have hold : ∀ d ∈ records children, d.nameEnds = true := fun d hd => hends d (by simp [hd])
    have hchild := ends_adopt r.address n hold
    intro d hd
    simp only [Entry.record_mk, records_append, records_cons, List.mem_append, List.mem_cons] at hd
    rcases hd with hd | rfl | hd | hd
    · exact hends d (by simp [hd])
    · exact hends d (by simp)
    · exact ih hchild hlens d hd
    · exact hends d (by simp [hd])
  | @missing c cs list child before n n' hcs hf hno hlast _ ih =>
    have hlens := fun c hc => hlen c (List.mem_cons_of_mem _ hc)
    have hc := (hlen c (List.mem_cons_self ..)).1
    intro d hd
    simp only [records_append, records_cons, records_nil, List.append_nil, List.mem_append,
      List.mem_cons] at hd
    rcases hd with hd | rfl | hd
    · exact hends d hd
    · simp [allocateDevice, endsInBlock, hc]
    · refine ih (fun x hx => ?_) hlens d hd
      simp only [allocateDummy, records_cons, records_nil, List.append_nil,
        List.mem_singleton] at hx
      rw [hx]

/-! ## Addresses -/

def addresses (list : List Entry) : List Address := (records list).map (·.address)

/-- The address was given out. -/
def Issued (n : Counts) : Address → Prop
  | .device number => 0 < number ∧ number ≤ n.devices
  | .dummy number => number ≤ n.dummies

def Counts.le (n n' : Counts) : Prop := n.devices ≤ n'.devices ∧ n.dummies ≤ n'.dummies

theorem Issued.mono {a : Address} (h : Issued n a) (hle : n.le n') : Issued n' a := by
  cases a with
  | device number => exact ⟨h.1, Nat.le_trans h.2 hle.1⟩
  | dummy number => exact Nat.le_trans h hle.2

@[simp] theorem addresses_append (list list' : List Entry) :
    addresses (list ++ list') = addresses list ++ addresses list' := by simp [addresses]

@[simp] theorem addresses_cons (dev : Record) (children list : List Entry) :
    addresses (.mk dev children :: list) =
      dev.address :: (addresses children ++ addresses list) := by simp [addresses]

/-- The second list has what the first one has, and addresses that were new. -/
def Extends (list : List Entry) (n : Counts) (list' : List Entry) (n' : Counts) : Prop :=
  n.le n' ∧ ∃ new : List Address, (addresses list').Perm (addresses list ++ new) ∧ new.Nodup ∧
    ∀ a ∈ new, ¬Issued n a ∧ Issued n' a

theorem Extends.refl (list : List Entry) (n : Counts) : Extends list n list n :=
  ⟨⟨Nat.le_refl _, Nat.le_refl _⟩, [], by simp, List.nodup_nil, nofun⟩

theorem Extends.trans {list₁ list₂ list₃ : List Entry} {n₁ n₂ n₃ : Counts}
    (h : Extends list₁ n₁ list₂ n₂) (h' : Extends list₂ n₂ list₃ n₃) :
    Extends list₁ n₁ list₃ n₃ := by
  obtain ⟨hle, new, hperm, hnd, hnew⟩ := h
  obtain ⟨hle', new', hperm', hnd', hnew'⟩ := h'
  refine ⟨⟨Nat.le_trans hle.1 hle'.1, Nat.le_trans hle.2 hle'.2⟩, new ++ new', ?_, ?_, ?_⟩
  · rw [← List.append_assoc]
    exact hperm'.trans (hperm.append_right new')
  · refine List.nodup_append.mpr ⟨hnd, hnd', fun a ha b hb hab => ?_⟩
    exact (hnew' b hb).1 (hab ▸ (hnew a ha).2)
  · intro a ha
    rcases List.mem_append.mp ha with ha | ha
    · exact ⟨(hnew a ha).1, (hnew a ha).2.mono hle'⟩
    · exact ⟨fun hi => (hnew' a ha).1 (hi.mono hle), (hnew' a ha).2⟩

theorem extends_adopt (address : Address) (children : List Entry) (n : Counts) :
    Extends children n (adopt address children n).1 (adopt address children n).2 := by
  cases children with
  | nil =>
    refine ⟨⟨Nat.le_refl _, Nat.le_succ _⟩, [.dummy (n.dummies + 1)], ?_, List.nodup_singleton _,
      ?_⟩
    · simp [adopt, allocateDummy, addresses]
    · simp [Issued, adopt]
  | cons e children =>
    obtain ⟨head, below⟩ := e
    exact ⟨⟨Nat.le_refl _, Nat.le_refl _⟩, [], by simp [adopt], List.nodup_nil,
      fun _ ha => absurd ha List.not_mem_nil⟩

/-- Children that grow inside of a list. -/
theorem Extends.setChildren {child : List Entry} (hf : list.find? (·.record.name = c) = some e)
    (h : Extends e.children n child n') : Extends list n (setChildren c child list) n' := by
  obtain ⟨hle, new, hperm, hnd, hnew⟩ := h
  refine ⟨hle, new, ?_, hnd, hnew⟩
  obtain ⟨before, after, rfl, -, -, hset⟩ := setChildren_split hf
  obtain ⟨dev, old⟩ := e
  rw [hset]
  simp only [addresses_append, addresses_cons, List.append_assoc, List.cons_append]
  refine List.Perm.append_left _ (List.Perm.cons _ ?_)
  refine (hperm.append_right _).trans ?_
  rw [List.append_assoc]
  exact List.perm_append_comm.append_left _

/-- New devices at the end of a list. -/
theorem Extends.append {new : List Entry} (h : Extends [] n new n') (list : List Entry) :
    Extends list n (list ++ new) n' := by
  obtain ⟨hle, addresses, hperm, hnd, hnew⟩ := h
  refine ⟨hle, addresses, ?_, hnd, hnew⟩
  rw [addresses_append]
  exact hperm.append_left _

theorem extends_newDevice (path : List Nat) (type : DeviceType) (callbacks : Callbacks)
    (parent : Option Address) (n : Counts) :
    Extends [] n [(newDevice path type callbacks parent n).1]
      (newDevice path type callbacks parent n).2 := by
  unfold newDevice
  split
  · refine ⟨⟨Nat.le_succ _, Nat.le_succ _⟩, [.device (n.devices + 1), .dummy (n.dummies + 1)], ?_⟩
    simp [addresses, allocateDevice, allocateDummy, Issued]
  · refine ⟨⟨Nat.le_succ _, Nat.le_refl _⟩, [.device (n.devices + 1)], ?_⟩
    simp [addresses, allocateDevice, Issued]

/-- A new directory and what is created in it. -/
theorem extends_newDirectory {child : List Entry} (dev : Record)
    (ha : dev.address = .device (n.devices + 1)) (parent : Option Address)
    (h : Extends [allocateDummy (n.dummies + 1) parent] ⟨n.devices + 1, n.dummies + 1⟩ child n') :
    Extends [] n [.mk dev child] n' := by
  have hnew : Extends [] n [.mk dev [allocateDummy (n.dummies + 1) parent]]
      ⟨n.devices + 1, n.dummies + 1⟩ := by
    refine ⟨⟨Nat.le_succ _, Nat.le_succ _⟩, [.device (n.devices + 1), .dummy (n.dummies + 1)], ?_⟩
    simp [addresses, ha, allocateDummy, Issued]
  have hf : [Entry.mk dev [allocateDummy (n.dummies + 1) parent]].find?
      (·.record.name = dev.name) = some (.mk dev [allocateDummy (n.dummies + 1) parent]) := by
    simp [Entry.record]
  have hset := Extends.setChildren hf h
  have hone : setChildren dev.name child [.mk dev [allocateDummy (n.dummies + 1) parent]] =
      [.mk dev child] := by
    simp [setChildren, updateFirst, Entry.record]
  rw [hone] at hset
  exact hnew.trans hset

/-- **A call gives out new addresses.** -/
theorem Creates.extends (h : Creates behind type callbacks t cs list n list' n') :
    Extends list n list' n' := by
  induction h with
  | nothing => exact .refl _ _
  | refused => exact .refl _ _
  | last => exact (extends_newDevice ..).append _
  | @found c cs list child dev n n' hcs hf _ ih =>
    exact .setChildren hf ((extends_adopt _ _ _).trans ih)
  | missing _ _ _ _ _ ih => exact (extends_newDirectory _ rfl _ ih).append _

/-- Every address was given out, and to one device. -/
def Counted (list : List Entry) (n : Counts) : Prop :=
  (addresses list).Nodup ∧ ∀ a ∈ addresses list, Issued n a

theorem Extends.counted (h : Extends list n list' n') (hc : Counted list n) : Counted list' n' := by
  obtain ⟨hle, new, hperm, hnd, hnew⟩ := h
  obtain ⟨hold, hissued⟩ := hc
  constructor
  · rw [hperm.nodup_iff, List.nodup_append]
    exact ⟨hold, hnd, fun a ha b hb hab => (hnew b hb).1 (hab ▸ hissued a ha)⟩
  · intro a ha
    rcases List.mem_append.mp (hperm.mem_iff.mp ha) with ha | ha
    · exact (hissued a ha).mono hle
    · exact (hnew a ha).2

/-! ## Runs -/

structure Manager where
  list : List Entry
  n : Counts

inductive ManagerEvent where
  | create (path : List Nat) (type : DeviceType) (callbacks : Callbacks) (answer : Option Record)

/-- Devices are created, from the dummy's list on; only directories with a trailing
delimiter. What is behind the names is up to the heap, and chosen anew for every call. -/
def managerLTS : LTS Manager ManagerEvent where
  init s := s.list = [allocateDummy 0 none] ∧ s.n = ⟨0, 0⟩
  step s e t := match e with
    | .create path type callbacks answer => NoNull path ∧
        (type ≠ .reserved → trailing path = false) ∧
        ∃ behind, deviceCreateAt behind path type callbacks s.list s.n = .ok (answer, t.list, t.n)

structure TreeInv (s : Manager) : Prop where
  ne_nil : s.list ≠ []
  sound : Sound none s.list
  counted : Counted s.list s.n

theorem Creates.ne_nil (h : Creates behind type callbacks t cs list n list' n') (hne : list ≠ []) :
    list' ≠ [] := by
  cases h with
  | nothing => exact hne
  | refused => exact hne
  | last => simp
  | found hcs hf _ =>
    obtain ⟨before, after, -, -, -, hset⟩ := setChildren_split hf
    rw [hset]
    simp
  | missing => simp

theorem treeInv_inductive : managerLTS.Inductive TreeInv where
  init s hs := by
    obtain ⟨hl, hn⟩ := hs
    refine ⟨by simp [hl], hl ▸ sound_dummy 0 none, ?_⟩
    rw [hl, hn]
    simp [Counted, addresses, allocateDummy, Issued]
  step s e t hi hst := by
    obtain ⟨path, type, callbacks, answer⟩ := e
    obtain ⟨hnull, htrail, behind, hcreate⟩ := hst
    have h := deviceCreateAt_creates hnull hi.ne_nil hcreate
    exact ⟨h.ne_nil hi.ne_nil, h.sound hi.sound (words_of_components hnull) htrail,
      h.extends.counted hi.counted⟩

/-! ## From a device up -/

/-- A device and the ones above it in the tree, the uppermost first. -/
inductive Trail : List Entry → List Record → Record → Prop
  | here {e : Entry} {list : List Entry} : e ∈ list → Trail list [e.record] e.record
  | down {e : Entry} {list : List Entry} {trail : List Record} {dev : Record} : e ∈ list →
      Trail e.children trail dev → Trail list (e.record :: trail) dev

/-- A device and the ones above it as its parents lead to them, the uppermost last. -/
inductive Climbs (root : List Entry) : Record → List Record → Prop
  | top {dev : Record} : dev.parent = none → Climbs root dev [dev]
  | up {dev above : Record} {ups : List Record} : dev.parent = some above.address →
      above ∈ records root → Climbs root above ups → Climbs root dev (dev :: ups)

variable {root : List Entry} {dev : Record} {ups trail : List Record} {p : Place}

theorem Trail.place (h : Trail list trail dev) : ⟨dev, trail.map (·.name)⟩ ∈ places list := by
  induction h with
  | here he => exact mem_places.mpr ⟨_, he, .inl rfl⟩
  | down he _ ih => exact mem_places.mpr ⟨_, he, .inr ⟨_, ih, rfl⟩⟩

theorem records_of_mem {e : Entry} (he : e ∈ list) :
    ∀ r ∈ e.record :: records e.children, r ∈ records list := by
  intro r hr
  obtain ⟨before, after, rfl⟩ := List.append_of_mem he
  obtain ⟨dev, children⟩ := e
  simp only [Entry.record, Entry.children, List.mem_cons] at hr
  simp only [records_append, records_cons, List.mem_append, List.mem_cons]
  tauto

theorem Trail.records (h : Trail list trail dev) : ∀ r ∈ trail, r ∈ records list := by
  induction h with
  | here he =>
    intro r hr
    exact records_of_mem he r (List.mem_cons.mpr (.inl (List.mem_singleton.mp hr)))
  | down he _ ih =>
    intro r hr
    rcases List.mem_cons.mp hr with rfl | hr
    · exact records_of_mem he _ (List.mem_cons_self ..)
    · exact records_of_mem he r (List.mem_cons_of_mem _ (ih r hr))

theorem Trail.cons {e : Entry} (h : Trail list trail dev) : Trail (e :: list) trail dev := by
  cases h with
  | here he => exact .here (List.mem_cons_of_mem _ he)
  | down he h => exact .down (List.mem_cons_of_mem _ he) h

/-- Every place has one. -/
theorem exists_trail : ∀ {list : List Entry} {p : Place}, p ∈ places list →
    ∃ trail, Trail list trail p.record ∧ p.path = trail.map (·.name)
  | [], _, h => by cases h
  | .mk dev children :: list, p, h => by
    rw [places, Entry.places] at h
    simp only [List.cons_append, List.mem_cons, List.mem_append, List.mem_map] at h
    rcases h with rfl | ⟨q, hq, rfl⟩ | hp
    · exact ⟨[dev], .here (e := .mk dev children) (List.mem_cons_self ..), rfl⟩
    · obtain ⟨trail, htrail, hnames⟩ := exists_trail hq
      refine ⟨dev :: trail, .down (e := .mk dev children) (List.mem_cons_self ..) htrail, ?_⟩
      simp [Place.below, hnames]
    · obtain ⟨trail, htrail, hnames⟩ := exists_trail hp
      exact ⟨trail, htrail.cons, hnames⟩

theorem recordAt_eq (hn : (addresses root).Nodup) (hd : dev ∈ records root) :
    recordAt root dev.address = some dev := by
  obtain ⟨before, after, he⟩ := List.append_of_mem hd
  unfold recordAt
  rw [he, List.find?_eq_some_iff_append]
  refine ⟨by simp, before, after, rfl, fun x hx => ?_⟩
  unfold addresses at hn
  rw [he, List.map_append, List.nodup_append] at hn
  have hne := hn.2.2 x.address (List.mem_map_of_mem hx) dev.address (by simp)
  simpa using hne

/-- The loop follows the parents. -/
theorem Climbs.hierarchy (h : Climbs root dev ups) (hn : (addresses root).Nodup) {rounds : Nat}
    (hr : ups.length ≤ rounds) : hierarchy root rounds dev = some ups := by
  induction h generalizing rounds with
  | @top dev hp =>
    obtain ⟨rounds, rfl⟩ : ∃ r, rounds = r + 1 := ⟨rounds - 1, by simp at hr; omega⟩
    simp [Devices.hierarchy, hp]
  | @up dev above ups hp hmem _ ih =>
    simp only [List.length_cons] at hr
    obtain ⟨rounds, rfl⟩ : ∃ r, rounds = r + 1 := ⟨rounds - 1, by omega⟩
    simp [Devices.hierarchy, hp, recordAt_eq hn hmem, ih (Nat.le_of_succ_le_succ hr)]

/-- A dummy that nothing was put behind has the type of a directory, and no parent. -/
theorem Bare.dummy (h : Bare list) (hp : p ∈ places list) :
    p.record.type = .reserved ∧ p.record.parent = none ∧ p.record.name = [DOT] := by
  rcases h with rfl | ⟨number, rfl⟩
  · cases hp
  · simp only [places, Entry.places, allocateDummy, List.map_nil, List.append_nil,
      List.mem_singleton] at hp
    rw [hp]
    exact ⟨rfl, rfl, rfl⟩

theorem Bare.reserved (h : Bare list) (hp : p ∈ places list) : p.record.type = .reserved :=
  (h.dummy hp).1

theorem mem_records (h : p ∈ places list) : p.record ∈ records list :=
  List.mem_map_of_mem h

/-- **The parents of a device are on its path**, but for a dummy that has no parent yet. -/
theorem Sound.climbs_or (h : Sound owner list) (hsub : ∀ r ∈ records list, r ∈ records root)
    (hup : owner = none ∧ ups = [] ∨
      ∃ above ∈ records root, owner = some above.address ∧ Climbs root above ups)
    (ht : Trail list trail dev) : Climbs root dev (trail.reverse ++ ups) ∨
      dev.type = .reserved ∧ dev.parent = none := by
  induction h generalizing ups trail dev with
  | @mk owner list hparent hpair hbelow ih =>
    have hclimb : ∀ e ∈ list, Climbs root e.record (e.record :: ups) := by
      intro e he
      rcases hup with ⟨hnone, hnil⟩ | ⟨above, hmem, hsome, habove⟩
      · rw [hnil]
        exact .top ((hparent e he).1.trans hnone)
      · exact .up ((hparent e he).1.trans hsome) hmem habove
    cases ht with
    | here he => exact .inl (hclimb _ he)
    | @down e _ trail _ he ht =>
      by_cases hbare : Bare e.children
      · obtain ⟨hreserved, hparent, -⟩ := hbare.dummy ht.place
        exact .inr ⟨hreserved, hparent⟩
      have hrecords : ∀ r ∈ e.record :: records e.children, r ∈ records root :=
        fun r hr => hsub r (records_of_mem he r hr)
      have hclimbs := ih e he hbare (fun r hr => hrecords r (List.mem_cons_of_mem _ hr))
        (.inr ⟨e.record, hrecords _ (List.mem_cons_self ..), rfl, hclimb e he⟩) ht
      simpa using hclimbs

theorem Sound.noNull (h : Sound owner list) (hp : p ∈ places list) : NoNull p.record.name := by
  induction h generalizing p with
  | @mk owner list hparent hpair hbelow ih =>
    obtain ⟨e, he, rfl | ⟨q, hq, rfl⟩⟩ := mem_places.mp hp
    · exact (hparent e he).2.1.2
    · by_cases hbare : Bare e.children
      · have hname : (q.below e.record.name).record.name = [DOT] := (hbare.dummy hq).2.2
        rw [hname]
        decide
      · have hname := ih e he hbare hq
        exact hname

/-- **A device is found by its path.** -/
theorem Sound.opens (h : Sound owner list) (hp : p ∈ places list) (ht : p.record.type ≠ .reserved)
    (mode : Nat) : openComponents mode p.path (devices list) = checkMode mode p.record.driver ∧
      p.path ≠ [] ∧ (∀ c ∈ p.path, Word c ∧ NoNull c) ∧
      ∃ number, p.record.address = .device number := by
  induction h generalizing p with
  | @mk owner list hparent hpair hbelow ih =>
    obtain ⟨e, he, hcase⟩ := mem_places.mp hp
    have hidle : ¬Idle e := by
      intro ⟨hr, hb⟩
      rcases hcase with rfl | ⟨q, hq, rfl⟩
      · exact ht hr
      · have hreserved := hb.reserved hq
        exact ht hreserved
    -- the first device of that name
    have hfind : (devices list).find? (·.name = e.record.name) = some e.device := by
      obtain ⟨before, after, rfl⟩ := List.append_of_mem he
      rw [devices_find, List.find?_eq_some_iff_append.mpr ⟨by simp, before, after, rfl, ?_⟩]
      · rfl
      · intro d hd
        rw [List.pairwise_append] at hpair
        have hne : d.record.name ≠ e.record.name := fun hn =>
          hidle (hpair.2.2 d hd e (List.mem_cons_self ..) hn)
        simpa using hne
    obtain ⟨dev, children⟩ := e
    rcases hcase with rfl | ⟨q, hq, rfl⟩
    · refine ⟨?_, by simp, by simpa using (hparent _ he).2.1, (hparent _ he).2.2 ht⟩
      simp only [openComponents, hfind]
      rfl
    · have hbare : ¬Bare children := by
        intro hb
        have hreserved := hb.reserved hq
        exact ht hreserved
      obtain ⟨hopen, hne, hwords, haddress⟩ := ih _ he hbare hq ht
      have hall : ∀ c ∈ dev.name :: q.path, Word c ∧ NoNull c := by
        simpa using ⟨(hparent _ he).2.1, hwords⟩
      refine ⟨?_, by simp [Place.below], hall, haddress⟩
      have hchild : (Entry.mk dev children).device.child = devices children := by
        refine child_of_children ?_
        obtain ⟨first, rest, rfl⟩ := List.exists_cons_of_ne_nil fun h0 => hbare (.inl h0)
        exact List.cons_ne_nil _ _
      simp only [Place.below]
      rw [openComponents, hfind]
      · simp only [hchild]
        exact hopen
      · exact hne

end GaOS.L4.Devices
