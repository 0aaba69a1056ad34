import GaOS.L4Files.DeviceEnum

/-!
# Paths of devices in small buffers

`device_generate_path_of` (kernel/src/devices/manager.c:63-105) cuts the copy of a name to
the room that is left, but moves the offset on by the whole name. When a name does not fit,
the offset is behind the end of the buffer, and so is the null that is written there: the
buffer is left without a terminator, and a byte behind it is overwritten. Only when the room
ends right before or right behind a delimiter does one of the two checks stop the loop with
the offset at the last byte.

In buffers of more than 2^31 bytes the sizes can be wrong as `int`s (`Bugs.PathBuffer`).

The names are read with `strlen`. One that fills its block, of a length that is a multiple of
16, reads on with what is behind the block. And the dummy of a directory that was created with
a trailing delimiter has no parent until something is put into the directory: its path is /.

`respects_iff_fits` is the exact condition: what the loop reads is the path of the device in
the tree, as far as the room goes, and every name up to the end of the path, or up to a
delimiter that the room ends at, is copied as a whole (`pathFits_iff_small` for buffers of
less than 2^31 bytes). Where all names end and the parents are set, only the copies matter
(`readsRight_of_ends`).

Counterexample: /fb0 in a buffer of three bytes.

Fix: `offset += min(strlen(name), path_len - offset)`, a byte more for each name, and the
parent of the dummy.
-/
namespace GaOS.Bugs.PathTerminator

open GaOS.L4.Files
open GaOS.L4.Devices

/-! ## What should hold -/

variable {behind : Nat → List Nat} {s : Manager} {root : List Entry} {dev : Record}
  {up trail : List Record} {size : Nat} {name : List Nat}

/-- In a buffer of up to 2^31 bytes the room for a name is what it is. -/
theorem copied_iff_small {room : Nat} (h : room < 2 ^ 31) :
    Copied name room ↔ name.length ≤ room := by
  unfold Copied
  rw [Nat.mod_eq_of_lt (by omega)]
  omega

/-- In such a buffer the whole path has room, or the room ends right before or right behind a
delimiter. -/
theorem pathFits_iff_small {names : List (List Nat)} {pathLen offset : Nat}
    (hle : offset ≤ pathLen) (hsmall : pathLen < 2 ^ 31) :
    PathFits pathLen names offset ↔ offset + (pathOf names).length ≤ pathLen ∨
      ∃ before name after, names = before ++ name :: after ∧
        (pathLen = offset + (pathOf before).length ∨
          pathLen = offset + (pathOf before).length + 1) := by
  induction names generalizing offset with
  | nil => exact iff_of_true trivial (.inl hle)
  | cons name names ih =>
    rw [PathFits, copied_iff_small (by omega)]
    simp only [pathOf_cons, List.length_cons, List.length_append]
    constructor
    · intro h
      by_cases hcut : pathLen = offset ∨ pathLen = offset + 1
      · exact .inr ⟨[], name, names, rfl, by simpa using hcut⟩
      obtain ⟨hname, hrest⟩ := (or_assoc.mpr h).resolve_left hcut
      rcases (ih (by omega)).mp hrest with hall | ⟨before, name', after, rfl, hend⟩
      · exact .inl (by omega)
      · refine .inr ⟨name :: before, name', after, rfl, ?_⟩
        simp only [pathOf_cons, List.length_cons, List.length_append]
        omega
    · rintro (hall | ⟨before, name', after, hnames, hend⟩)
      · exact .inr (.inr ⟨by omega, (ih (by omega)).mpr (.inl (by omega))⟩)
      · cases before with
        | nil =>
          simp only [pathOf_nil, List.length_nil] at hend
          omega
        | cons first before =>
          obtain ⟨rfl, rfl⟩ := List.cons_eq_cons.mp hnames
          simp only [pathOf_cons, List.length_cons, List.length_append] at hend
          exact .inr (.inr ⟨by omega,
            (ih (by omega)).mpr (.inr ⟨before, name', after, rfl, by omega⟩)⟩)

/-! ## What is read -/

/-- The devices whose names the loop finds: all of the path, when the parents are set. A dummy
that nothing was put behind has no parent, wherever it is. -/
def found (trail : List Record) (dev : Record) : List Record :=
  if dev.parent = none then [dev] else trail

/-- As far as the room goes the names that the loop finds, with the bytes that are read behind
them, are the ones that the devices of the path were created with. -/
def ReadsRight (behind : Nat → List Nat) (trail : List Record) (dev : Record) (room : Nat) : Prop :=
  (pathOf ((found trail dev).map (Record.text behind))).take room =
    (pathOf (trail.map (·.name))).take room

/-- Names with a null in their blocks, below parents that are set. -/
theorem readsRight_of_ends (hends : ∀ r ∈ trail, r.nameEnds = true)
    (hparent : dev.parent ≠ none) (room : Nat) : ReadsRight behind trail dev room := by
  have htexts : trail.map (Record.text behind) = trail.map (·.name) :=
    List.map_congr_left fun r hr => by rw [Record.text, if_pos (hends r hr)]
  rw [ReadsRight, found, if_neg hparent, htexts]

/-- The dummy of /d/: the path is /. in place of /d/. -/
example : found [⟨[0x64], .reserved, reserved, true, .device 1, none⟩,
      ⟨[DOT], .reserved, reserved, true, .dummy 1, none⟩]
    ⟨[DOT], .reserved, reserved, true, .dummy 1, none⟩ =
      [⟨[DOT], .reserved, reserved, true, .dummy 1, none⟩] := rfl

def fb0 : Record := ⟨[0x66, 0x62, 0x30], .framebuffer, reserved, true, .device 1, none⟩

end GaOS.Bugs.PathTerminator
