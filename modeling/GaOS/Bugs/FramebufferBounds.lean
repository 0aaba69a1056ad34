import GaOS.Core.LTS
import GaOS.L4Files.Framebuffer

/-!
# The framebuffer device leaves the framebuffer

Reads and writes of /dev/fb0 (kernel/src/devices/framebuffer/framebuffer.c:153-168) get
the size that user space asks for.

* `framebuffer_read` does not look at the position at all; its comment says so.
* `framebuffer_write` moves the position back to `max_seek_position - size` when the
  write would go past `max_seek_position`. The limit is one less than the size of the
  framebuffer, and for a size above the limit the subtraction wraps: a write of the
  whole framebuffer starts one byte below it.

`inside_iff_fits` is the exact condition: a read must end in the framebuffer, and a
write must be smaller than it.

Counterexample: a write of `pitch * height` bytes from position zero.

Fix: cut the size to `pitch * height - seek_position` in both.
-/
namespace GaOS.Bugs.FramebufferBounds

open GaOS.L4.FbDevice

/-! ## What should hold -/

/-- Every byte of the access is in the framebuffer. -/
def Inside (fb : Framebuffer) (a : Access) : Prop :=
  ∀ i, i < a.count → fb.base ≤ add64 a.start i ∧ add64 a.start i < fb.base + fb.bytes

/-- A read that copies something ends in the framebuffer; a write is smaller than the
framebuffer. -/
def Fits (fb : Framebuffer) (node : Node) : Op → Prop
  | .read size => size = 0 ∨ node.seekPosition + size ≤ fb.bytes
  | .write size => size < fb.bytes

/-- A node and what was done through it. -/
structure Run where
  node : Node
  log : List Access

/-- Reads and writes with any 64-bit size that fit, on a node of the device. -/
def fitLTS (fb : Framebuffer) : LTS Run Op where
  init s := s = ⟨framebufferInitialiseNode fb, []⟩
  step s op t := op.size < 2 ^ 64 ∧ Fits fb s.node op ∧
    t = ⟨(perform fb s.node op).2, s.log ++ [(perform fb s.node op).1]⟩

/-! ## The condition -/

variable {fb : Framebuffer}

/-- An access from position `q` on is inside exactly if it ends there. -/
theorem inside_iff {q count : Nat} (hq : q < 2 ^ 64) (hc : count < 2 ^ 64) :
    Inside fb ⟨add64 fb.base q, count⟩ ↔ count = 0 ∨ q + count ≤ fb.bytes := by
  have h1 := fb.higher_half
  have h2 : fb.base + fb.bytes ≤ 2 ^ 64 := fb.fits
  constructor
  · intro h
    by_contra hout
    rw [not_or, Nat.not_le] at hout
    -- the first byte, and the first one behind the framebuffer
    have hfirst := h 0 (by simp only; omega)
    by_cases hin : q < fb.bytes
    · have hlast := h (fb.bytes - q) (by simp only; omega)
      simp only [add64] at hlast
      omega
    · simp only [add64] at hfirst
      omega
  · intro h i hi
    simp only [add64] at hi ⊢
    omega

/-- The position stays in the framebuffer or at its end. -/
structure NodeInv (fb : Framebuffer) (node : Node) : Prop where
  max_eq : node.maxSeekPosition = fb.bytes - 1
  seek_le : node.seekPosition ≤ fb.bytes

theorem NodeInv.inside_iff {node : Node} (hi : NodeInv fb node) {op : Op}
    (hop : op.size < 2 ^ 64) : Inside fb (perform fb node op).1 ↔ Fits fb node op := by
  have h1 := fb.bytes_pos
  have h2 := fb.bytes_le
  have h3 := hi.seek_le
  cases op with
  | read size => exact FramebufferBounds.inside_iff (by omega) hop
  | write size =>
    have hsize : size < 2 ^ 64 := hop
    simp only [perform, framebufferWrite, hi.max_eq, Fits]
    split
    · have hlt : sub64 (fb.bytes - 1) size < 2 ^ 64 := Nat.mod_lt _ (by decide)
      rw [FramebufferBounds.inside_iff hlt hsize]
      simp only [sub64]
      omega
    · rename_i hle
      rw [FramebufferBounds.inside_iff (by omega) hsize]
      simp only [add64] at hle
      omega

theorem NodeInv.perform {node : Node} (hi : NodeInv fb node) {op : Op} (hop : op.size < 2 ^ 64)
    (hf : Fits fb node op) : NodeInv fb (perform fb node op).2 := by
  have h1 := fb.bytes_pos
  have h2 := fb.bytes_le
  have h3 := hi.seek_le
  cases op with
  | read size =>
    refine ⟨hi.max_eq, ?_⟩
    change add64 node.seekPosition size ≤ _
    simp only [Fits, Op.size] at hf hop
    simp only [add64]
    omega
  | write size =>
    simp only [Fits] at hf
    simp only [L4.FbDevice.perform, framebufferWrite, hi.max_eq]
    split
    · refine ⟨rfl, ?_⟩
      simp only [sub64, add64]
      omega
    · rename_i hle
      refine ⟨hi.max_eq, ?_⟩
      simp only
      omega

theorem fit_inductive (fb : Framebuffer) : (fitLTS fb).Inductive fun s =>
    NodeInv fb s.node ∧ ∀ a ∈ s.log, Inside fb a where
  init s hs := by
    subst hs
    exact ⟨⟨initialise_max fb, Nat.zero_le _⟩, nofun⟩
  step s op t hs hst := by
    obtain ⟨hi, hlog⟩ := hs
    obtain ⟨hop, hf, rfl⟩ := hst
    refine ⟨hi.perform hop hf, fun a ha => ?_⟩
    rcases List.mem_append.mp ha with ha | ha
    · exact hlog a ha
    · rw [List.mem_singleton.mp ha]
      exact (hi.inside_iff hop).mpr hf

/-- **When the device stays in the framebuffer.** In every run of reads and writes
that fit, every access so far was inside of the framebuffer; and the next read or
write, of any 64-bit size, is inside exactly if it fits. -/
theorem inside_iff_fits {s : Run} (hs : (fitLTS fb).Reachable s) :
    (∀ a ∈ s.log, Inside fb a) ∧
      ∀ op : Op, op.size < 2 ^ 64 → (Inside fb (perform fb s.node op).1 ↔ Fits fb s.node op) := by
  obtain ⟨hi, hlog⟩ := (fit_inductive fb).reachable hs
  exact ⟨hlog, fun op hop => hi.inside_iff hop⟩

/-! ## Counterexample -/

/-- 1024 by 768 pixels of 32 bits. -/
def vga : Framebuffer where
  base := 0xFFFF8000FD000000
  pitch := 4096
  height := 768
  pitch_pos := by decide
  height_pos := by decide
  higher_half := by decide
  fits := by decide

/-- A line is written, half of the next one is read, and three lines are written. -/
theorem inside_vga : ∃ s,
    (fitLTS vga).Run ⟨framebufferInitialiseNode vga, []⟩ [.write 4096, .read 2048] s ∧
      s.node.seekPosition = 6144 ∧ Inside vga (perform vga s.node (.write 12288)).1 := by
  let written : Run := ⟨⟨4096, 4096 * 768 - 1⟩, [⟨vga.base, 4096⟩]⟩
  let read : Run := ⟨⟨6144, 4096 * 768 - 1⟩, [⟨vga.base, 4096⟩, ⟨vga.base + 4096, 2048⟩]⟩
  have hfirst : perform vga (framebufferInitialiseNode vga) (.write 4096) =
      (⟨vga.base, 4096⟩, written.node) := by decide +kernel
  have hsecond : perform vga written.node (.read 2048) = (⟨vga.base + 4096, 2048⟩, read.node) := by
    decide +kernel
  have hwrite : (fitLTS vga).step ⟨framebufferInitialiseNode vga, []⟩ (.write 4096) written :=
    ⟨by decide, show 4096 < 4096 * 768 by decide, by rw [hfirst]; rfl⟩
  have hread : (fitLTS vga).step written (.read 2048) read :=
    ⟨by decide, .inr (show 4096 + 2048 ≤ 4096 * 768 by decide), by rw [hsecond]; rfl⟩
  have hrun : (fitLTS vga).Run ⟨framebufferInitialiseNode vga, []⟩ [.write 4096, .read 2048] read :=
    .cons hwrite (.cons hread (.nil _))
  exact ⟨read, hrun, rfl, ((inside_iff_fits ⟨_, _, rfl, hrun⟩).2 (.write 12288) (by decide)).mpr
    (show 12288 < 4096 * 768 by decide)⟩

/-- **The whole framebuffer in one write.** It starts a byte below. -/
theorem whole_write_outside :
    (perform vga (framebufferInitialiseNode vga) (.write (vga.pitch * vga.height))).1 =
        ⟨vga.base - 1, vga.pitch * vga.height⟩ ∧
      ¬Inside vga
        (perform vga (framebufferInitialiseNode vga) (.write (vga.pitch * vga.height))).1 := by
  have h : (perform vga (framebufferInitialiseNode vga) (.write (vga.pitch * vga.height))).1 =
      ⟨vga.base - 1, vga.pitch * vga.height⟩ := by decide +kernel
  refine ⟨h, fun hin => ?_⟩
  rw [h] at hin
  have hfirst := (hin 0 (show 0 < 4096 * 768 by decide)).1
  exact absurd hfirst (by decide)

end GaOS.Bugs.FramebufferBounds
