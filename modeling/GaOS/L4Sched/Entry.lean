import GaOS.Core.LTS
import GaOS.Core.WordStack
import GaOS.L4Sched.RoundRobin

/-!
# Into the kernel and back by an interrupt

Model of kernel/src/arch/x86_64/idt/idt.asm, state/state.asm and timers/xapic.asm: the
code between the processor and the handlers in C. An instruction is a function on the
registers and the memory, and a block of code their composition. What the processor does
on its own (delivering an interrupt, `iretq`) is as its manual says. The interrupt frame
of the processor, the error code and the registers that `PUSH_REG` pushes are together an
`arch_cpu_state_t` (`CpuState.words`), which is what the handlers get a pointer to.

Left out: the vector registers (`GaOS.L4.RoundRobin` has them), the selectors that the
processor loads for the handler, and the return address of the call of a handler, which
the handler takes off again.
-/
namespace GaOS.L4.Entry

open GaOS.L4.RoundRobin

/-! ## The processor -/

/-- The registers that `PUSH_REG` pushes one by one. -/
inductive Reg where
  | rax | rbx | rcx | rdx | rsi | rdi | rbp | r8 | r9 | r10 | r11 | r12 | r13 | r14 | r15
  deriving DecidableEq

def Reg.get (s : CpuState) : Reg → Nat
  | .rax => s.rax
  | .rbx => s.rbx
  | .rcx => s.rcx
  | .rdx => s.rdx
  | .rsi => s.rsi
  | .rdi => s.rdi
  | .rbp => s.rbp
  | .r8 => s.r8
  | .r9 => s.r9
  | .r10 => s.r10
  | .r11 => s.r11
  | .r12 => s.r12
  | .r13 => s.r13
  | .r14 => s.r14
  | .r15 => s.r15

def Reg.set (s : CpuState) (v : Nat) : Reg → CpuState
  | .rax => { s with rax := v }
  | .rbx => { s with rbx := v }
  | .rcx => { s with rcx := v }
  | .rdx => { s with rdx := v }
  | .rsi => { s with rsi := v }
  | .rdi => { s with rdi := v }
  | .rbp => { s with rbp := v }
  | .r8 => { s with r8 := v }
  | .r9 => { s with r9 := v }
  | .r10 => { s with r10 := v }
  | .r11 => { s with r11 := v }
  | .r12 => { s with r12 := v }
  | .r13 => { s with r13 := v }
  | .r14 => { s with r14 := v }
  | .r15 => { s with r15 := v }

/-- The registers of a processor (`error` is none of them) and the memory. -/
structure Cpu where
  state : CpuState
  mem : Mem

def Cpu.push (c : Cpu) (v : Nat) : Cpu :=
  let rsp := sub64 c.state.rsp 8
  { state := { c.state with rsp := rsp }, mem := c.mem.store rsp v }

/-- What a pop reads; the pointer goes up by `n` pops. -/
def Cpu.drop (c : Cpu) (n : Nat) : Cpu :=
  { c with state := { c.state with rsp := add64 c.state.rsp (8 * n) } }

def Cpu.top (c : Cpu) : Nat := c.mem c.state.rsp

def Cpu.pushReg (c : Cpu) (r : Reg) : Cpu := c.push (r.get c.state)

def Cpu.popReg (c : Cpu) (r : Reg) : Cpu :=
  { c.drop 1 with state := r.set (c.drop 1).state c.top }

/-- `IF`, bit 9 of the flags. -/
def cli (s : CpuState) : CpuState := { s with rflags := s.rflags &&& not64 0x200 }

/-- The processor goes to a handler on the stack with top `ist`: it aligns the stack,
pushes the frame of `iretq` and an error code if the exception has one, and clears `IF`. -/
def deliver (ist handler : Nat) (error : Option Nat) (c : Cpu) : Cpu :=
  let s := c.state
  let c := { c with state := { s with rsp := ist / 16 * 16 } }
  let c := ((((c.push s.ss).push s.rsp).push s.rflags).push s.cs).push s.rip
  let c := match error with
    | some code => c.push code
    | none => c
  { c with state := cli { c.state with rip := handler, cs := 8 * 1 } }

def iretq (c : Cpu) : Cpu :=
  let rsp := c.state.rsp
  { c with state := { c.state with
      rip := c.mem rsp
      cs := c.mem (add64 rsp 8)
      rflags := c.mem (add64 rsp 16)
      rsp := c.mem (add64 rsp 24)
      ss := c.mem (add64 rsp 32) } }

/-! ## The code -/

/-- mirrors kernel/src/arch/x86_64/idt/idt.asm:22-36 -/
def PUSH_ORDER : List Reg :=
  [.r15, .r14, .r13, .r12, .r11, .r10, .r9, .r8, .rbp, .rdi, .rsi, .rdx, .rcx, .rbx, .rax]

/-- mirrors kernel/src/arch/x86_64/idt/idt.asm:44-58 -/
def POP_ORDER : List Reg :=
  [.rax, .rbx, .rcx, .rdx, .rsi, .rdi, .rbp, .r8, .r9, .r10, .r11, .r12, .r13, .r14, .r15]

/-- mirrors kernel/src/arch/x86_64/idt/idt.asm:21-39 and
kernel/src/arch/x86_64/registers.mac:1-19 -/
def pushRegs (c : Cpu) : Cpu :=
  let c := PUSH_ORDER.foldl Cpu.pushReg c
  -- mov rax, cr3; push rax
  { c with state := { c.state with rax := c.state.cr3 } }.pushReg .rax

/-- mirrors kernel/src/arch/x86_64/idt/idt.asm:41-59 and
kernel/src/arch/x86_64/registers.mac:21-39 -/
def popRegs (c : Cpu) : Cpu :=
  let c := c.popReg .rax
  -- mov cr3, rax
  let c := { c with state := { c.state with cr3 := c.state.rax } }
  POP_ORDER.foldl Cpu.popReg c

/-- The vectors for which the processor pushes an error code.
mirrors kernel/src/arch/x86_64/idt/idt.asm:71 -/
def ERROR_VECTORS : List Nat := [0x8, 0xA, 0xB, 0xC, 0xD, 0xE, 0x11, 0x15, 0x1D, 0x1E]

/-- `sub rsp, 8` -/
def Cpu.skip (c : Cpu) : Cpu := { c with state := { c.state with rsp := sub64 c.state.rsp 8 } }

/-- Up to the call of `arch_isr_handler`.
mirrors kernel/src/arch/x86_64/idt/idt.asm:67-77 -/
def isrEntry (n : Nat) (c : Cpu) : Cpu :=
  let c := if n ∈ ERROR_VECTORS then c else c.skip
  let c := pushRegs c
  { c with state := { c.state with rdi := c.state.rsp, rsi := n } }

/-- From its return on.
mirrors kernel/src/arch/x86_64/idt/idt.asm:78-80 -/
def isrExit (c : Cpu) : Cpu := iretq ((popRegs c).drop 1)

/-- Up to the jump to `arch_xapic_isr_handler`.
mirrors kernel/src/arch/x86_64/timers/xapic.asm:48-53 -/
def xapicEntry (c : Cpu) : Cpu :=
  let c := pushRegs { c with state := cli c.state }.skip
  { c with state := { c.state with rdi := c.state.rsp } }

/-- mirrors kernel/src/arch/x86_64/state/state.asm:11-15 -/
def archSwitchState (state : Nat) (c : Cpu) : Cpu :=
  iretq ((popRegs { c with state := { c.state with rdi := state, rsp := state } }).drop 1)

/-! ## Frames -/

/-- An `arch_cpu_state_t` in memory.
mirrors kernel/src/arch/x86_64/state/state.h:4-29 -/
def stateWords (s : CpuState) : List Nat :=
  [s.cr3, s.rax, s.rbx, s.rcx, s.rdx, s.rsi, s.rdi, s.rbp, s.r8, s.r9, s.r10, s.r11, s.r12, s.r13,
    s.r14, s.r15, s.error, s.rip, s.cs, s.rflags, s.rsp, s.ss]

/-- `sizeof(arch_cpu_state_t)` -/
def SIZEOF_STATE : Nat := 176

theorem stateWords_length (s : CpuState) : 8 * (stateWords s).length = SIZEOF_STATE := rfl

/-- The words `ws` were pushed since the pointer was `base`; the memory was `mem` then. -/
structure Pushed (mem : Mem) (base : Nat) (ws : List Nat) (c : Cpu) : Prop where
  rsp : c.state.rsp + 8 * ws.length = base
  words : c.mem.At c.state.rsp ws
  frame : ∀ x, x < c.state.rsp ∨ base ≤ x → c.mem x = mem x

variable {c : Cpu} {mem : Mem} {base : Nat} {ws : List Nat}

@[simp] theorem Cpu.skip_mem (c : Cpu) : c.skip.mem = c.mem := by
  cases c
  rfl

@[simp] theorem Reg.get_rsp (s : CpuState) (v : Nat) (r : Reg) :
    r.get { s with rsp := v } = r.get s := by
  cases r <;> rfl

theorem Cpu.push_state (hr : 8 ≤ c.state.rsp) (hlt : c.state.rsp < 2 ^ 64) (v : Nat) :
    (c.push v).state = { c.state with rsp := c.state.rsp - 8 } := by
  simp only [Cpu.push, sub64_of_le hr hlt]

theorem Pushed.push (h : Pushed mem base ws c) (hroom : 8 * ws.length + 8 ≤ base)
    (hbase : base < 2 ^ 64) (v : Nat) : Pushed mem base (v :: ws) (c.push v) := by
  have hrsp := h.rsp
  have hstate := Cpu.push_state (c := c) (by omega) (by omega) v
  have hmem : (c.push v).mem = c.mem.store (c.state.rsp - 8) v := by
    simp only [Cpu.push, sub64_of_le (show 8 ≤ c.state.rsp by omega) (by omega)]
  refine ⟨?_, ?_, fun x hx => ?_⟩
  · simp only [hstate, List.length_cons]
    omega
  · rw [hmem, hstate]
    exact h.words.push (by omega) v
  · simp only [hstate] at hx
    rw [hmem, Mem.store_ne _ _ (by omega), h.frame x (by omega)]

/-- Room for a word that is not written. -/
theorem Pushed.skip (h : Pushed mem base ws c) (hroom : 8 * ws.length + 8 ≤ base)
    (hbase : base < 2 ^ 64) :
    Pushed mem base (mem (c.state.rsp - 8) :: ws) c.skip ∧
      c.skip.state = { c.state with rsp := c.state.rsp - 8 } := by
  have hrsp := h.rsp
  have hsub : sub64 c.state.rsp 8 = c.state.rsp - 8 := sub64_of_le (by omega) (by omega)
  have hstate : c.skip.state = { c.state with rsp := c.state.rsp - 8 } := by
    simp only [Cpu.skip, hsub]
  refine ⟨⟨?_, ?_, fun x hx => ?_⟩, hstate⟩
  · simp only [hstate, List.length_cons]
    omega
  · have hword := h.frame (c.state.rsp - 8) (.inl (by omega))
    have hnext : c.state.rsp - 8 + 8 = c.state.rsp := Nat.sub_add_cancel (by omega)
    rw [hstate, Cpu.skip_mem, Mem.At, hnext]
    exact ⟨hword, h.words⟩
  · simp only [hstate] at hx
    rw [Cpu.skip_mem]
    exact h.frame x (by omega)

/-- Registers other than the pointer. -/
theorem Pushed.of_state (h : Pushed mem base ws c) {s : CpuState} (hs : s.rsp = c.state.rsp) :
    Pushed mem base ws { c with state := s } :=
  ⟨hs ▸ h.rsp, hs ▸ h.words, hs ▸ h.frame⟩

theorem Pushed.pushAll (h : Pushed mem base ws c) (rs : List Reg)
    (hroom : 8 * ws.length + 8 * rs.length ≤ base) (hbase : base < 2 ^ 64) :
    Pushed mem base ((rs.map fun r => r.get c.state).reverse ++ ws) (rs.foldl Cpu.pushReg c) ∧
      (rs.foldl Cpu.pushReg c).state = { c.state with rsp := c.state.rsp - 8 * rs.length } := by
  induction rs generalizing c ws with
  | nil => exact ⟨h, rfl⟩
  | cons r rs ih =>
    simp only [List.length_cons] at hroom
    have hrsp := h.rsp
    have hstate := Cpu.push_state (c := c) (by omega) (by omega) (r.get c.state)
    obtain ⟨h1, h2⟩ := ih (h.push (by omega) hbase (r.get c.state))
      (by simp only [List.length_cons]; omega)
    simp only [hstate, Reg.get_rsp] at h1 h2
    have hlen : c.state.rsp - 8 - 8 * rs.length = c.state.rsp - 8 * (rs.length + 1) := by omega
    rw [hlen] at h2
    rw [List.foldl_cons]
    exact ⟨by simpa [Cpu.pushReg] using h1, h2⟩

/-- The sixteen words below the error code. -/
theorem Pushed.registers (h : Pushed mem base ws c) (hroom : 8 * ws.length + 128 ≤ base)
    (hbase : base < 2 ^ 64) :
    Pushed mem base ((stateWords c.state).take 16 ++ ws) (pushRegs c) ∧
      (pushRegs c).state =
        { c.state with rax := c.state.cr3, rsp := c.state.rsp - 128 } := by
  have hrsp := h.rsp
  have hlen : PUSH_ORDER.length = 15 := rfl
  obtain ⟨h1, h2⟩ := h.pushAll PUSH_ORDER (by omega) hbase
  unfold pushRegs
  generalize List.foldl Cpu.pushReg c _ = d at h1 h2
  have hroom : 8 * ((PUSH_ORDER.map fun r => r.get c.state).reverse ++ ws).length + 8 ≤ base := by
    simp only [List.length_append, List.length_reverse, List.length_map, hlen]
    omega
  have hrax := h1.of_state (s := { d.state with rax := d.state.cr3 }) rfl
  have h3 := hrax.push hroom hbase d.state.cr3
  have hd : d.state.rsp = c.state.rsp - 120 := by rw [h2]; rfl
  have hstate := Cpu.push_state (c := { d with state := { d.state with rax := d.state.cr3 } })
    (by simp only [hd]; omega) (by simp only [hd]; omega) d.state.cr3
  refine ⟨?_, ?_⟩
  · simpa [h2, PUSH_ORDER, Cpu.pushReg, Reg.get, stateWords] using h3
  · rw [Cpu.pushReg, Reg.get, hstate, h2]
    simp [PUSH_ORDER, Nat.sub_sub]

/-! ## The way back -/

theorem Reg.set_rsp (s : CpuState) (v : Nat) (r : Reg) : (r.set s v).rsp = s.rsp := by
  cases r <;> rfl

theorem Reg.set_with_rsp (s : CpuState) (v rsp : Nat) (r : Reg) :
    { r.set s v with rsp := rsp } = r.set { s with rsp := rsp } v := by
  cases r <;> rfl

theorem popReg_eq (mem : Mem) {s : CpuState} (h : s.rsp + 8 < 2 ^ 64) (r : Reg) :
    Cpu.popReg ⟨s, mem⟩ r = ⟨r.set { s with rsp := s.rsp + 8 } (mem s.rsp), mem⟩ := by
  have hadd : add64 s.rsp (8 * 1) = s.rsp + 8 := add64_of_lt (by omega)
  simp only [Cpu.popReg, Cpu.drop, Cpu.top, hadd]

theorem popAll_eq (rs : List Reg) {s : CpuState} (vs : List Nat) (hlen : vs.length = rs.length)
    (h : s.rsp + 8 * rs.length < 2 ^ 64) (hat : mem.At s.rsp (vs ++ ws)) :
    rs.foldl Cpu.popReg ⟨s, mem⟩ =
      ⟨(rs.zip vs).foldl (fun s x => x.1.set s x.2) { s with rsp := s.rsp + 8 * rs.length }, mem⟩ ∧
    mem.At (s.rsp + 8 * rs.length) ws := by
  induction rs generalizing s vs with
  | nil =>
    obtain rfl := List.length_eq_zero_iff.mp hlen
    exact ⟨rfl, hat⟩
  | cons r rs ih =>
    cases vs with
    | nil => cases hlen
    | cons v vs =>
      simp only [List.length_cons] at h hlen
      obtain ⟨hv, hrest⟩ := hat
      have hpop := popReg_eq mem (s := s) (by omega) r
      rw [hv] at hpop
      have hrsp : (r.set { s with rsp := s.rsp + 8 } v).rsp = s.rsp + 8 := Reg.set_rsp _ _ _
      obtain ⟨h1, h2⟩ := ih (s := r.set { s with rsp := s.rsp + 8 } v) vs (by omega)
        (by rw [hrsp]; omega) (by rw [hrsp]; exact hrest)
      have hsum : s.rsp + 8 + 8 * rs.length = s.rsp + 8 * (rs.length + 1) := by omega
      rw [hrsp, hsum] at h1 h2
      rw [Reg.set_with_rsp] at h1
      rw [List.foldl_cons, hpop, List.zip_cons_cons, List.foldl_cons, List.length_cons]
      exact ⟨h1, h2⟩

/-- What the sixteen pops load, and where they stop. -/
theorem popRegs_eq {s d : CpuState} (h : d.rsp + 128 < 2 ^ 64)
    (hat : mem.At d.rsp ((stateWords s).take 16 ++ ws)) :
    popRegs ⟨d, mem⟩ =
      ⟨{ s with error := d.error, rip := d.rip, cs := d.cs, rflags := d.rflags, ss := d.ss,
                rsp := d.rsp + 128 }, mem⟩ ∧ mem.At (d.rsp + 128) ws := by
  obtain ⟨hcr3, hrest⟩ := hat
  have hpop := popReg_eq mem (s := d) (by omega) .rax
  rw [hcr3] at hpop
  have hlen : POP_ORDER.length = 15 := rfl
  obtain ⟨h1, h2⟩ := popAll_eq POP_ORDER
    (s := { d with rax := s.cr3, rsp := d.rsp + 8, cr3 := s.cr3 }) ((stateWords s).take 16).tail rfl
    (by simp only [hlen]; omega) hrest
  have hsum : d.rsp + 8 + 8 * POP_ORDER.length = d.rsp + 128 := by omega
  simp only [hsum] at h1 h2
  refine ⟨?_, h2⟩
  rw [popRegs, hpop]
  simp only [Reg.set]
  rw [h1]
  simp [POP_ORDER, stateWords, Reg.set]

/-- Popping an `arch_cpu_state_t` loads all of it but the error code. -/
theorem restore_eq (mem : Mem) {s d : CpuState} (h : d.rsp + SIZEOF_STATE < 2 ^ 64)
    (hat : mem.At d.rsp (stateWords s)) :
    iretq ((popRegs ⟨d, mem⟩).drop 1) = ⟨{ s with error := d.error }, mem⟩ := by
  have hsplit : stateWords s =
      (stateWords s).take 16 ++ [s.error, s.rip, s.cs, s.rflags, s.rsp, s.ss] := rfl
  rw [SIZEOF_STATE] at h
  rw [hsplit] at hat
  obtain ⟨hregs, -, hrip, hcs, hflags, hrsp, hss, -⟩ := popRegs_eq (by omega) hat
  have h1 : add64 (d.rsp + 128) (8 * 1) = d.rsp + 136 := add64_of_lt (by omega)
  have h2 : add64 (d.rsp + 136) 8 = d.rsp + 144 := add64_of_lt (by omega)
  have h3 : add64 (d.rsp + 136) 16 = d.rsp + 152 := add64_of_lt (by omega)
  have h4 : add64 (d.rsp + 136) 24 = d.rsp + 160 := add64_of_lt (by omega)
  have h5 : add64 (d.rsp + 136) 32 = d.rsp + 168 := add64_of_lt (by omega)
  rw [hregs]
  simp only [Cpu.drop, iretq, h1, h2, h3, h4, h5]
  simp only [Nat.add_assoc, Nat.reduceAdd] at hrip hcs hflags hrsp hss
  rw [hrip, hcs, hflags, hrsp, hss]

/-! ## The way in -/

/-- The frame that the processor pushes for `iretq`, the last word first. -/
def returnWords (s : CpuState) : List Nat := [s.rip, s.cs, s.rflags, s.rsp, s.ss]

/-- The general registers of two states. -/
def SameGeneral (s d : CpuState) : Prop := (stateWords d).take 16 = (stateWords s).take 16

theorem Pushed.start (mem : Mem) (s : CpuState) : Pushed mem s.rsp [] ⟨s, mem⟩ :=
  ⟨rfl, trivial, fun _ _ => rfl⟩

theorem Pushed.push_state {v : Nat} (h : Pushed mem base ws c) (hroom : 8 * ws.length + 8 ≤ base)
    (hbase : base < 2 ^ 64) :
    Pushed mem base (v :: ws) (c.push v) ∧
      (c.push v).state = { c.state with rsp := c.state.rsp - 8 } := by
  have hrsp := h.rsp
  exact ⟨h.push hroom hbase v, Cpu.push_state (by omega) (by omega) v⟩

theorem deliver_frame {ist : Nat} (handler : Nat) (error : Option Nat) (h : 48 ≤ ist / 16 * 16)
    (hist : ist < 2 ^ 64) (s : CpuState) (mem : Mem) :
    Pushed mem (ist / 16 * 16) (error.toList ++ returnWords s)
        (deliver ist handler error ⟨s, mem⟩) ∧
      SameGeneral s (deliver ist handler error ⟨s, mem⟩).state := by
  have htop : ist / 16 * 16 < 2 ^ 64 := by omega
  generalize hbase : ist / 16 * 16 = base at h htop
  obtain ⟨p1, s1⟩ := (Pushed.start mem { s with rsp := base }).push_state (v := s.ss)
    (by simp only [List.length_nil]; omega) htop
  obtain ⟨p2, s2⟩ := p1.push_state (v := s.rsp)
    (by simp only [List.length_cons, List.length_nil]; omega) htop
  obtain ⟨p3, s3⟩ := p2.push_state (v := s.rflags)
    (by simp only [List.length_cons, List.length_nil]; omega) htop
  obtain ⟨p4, s4⟩ := p3.push_state (v := s.cs)
    (by simp only [List.length_cons, List.length_nil]; omega) htop
  obtain ⟨p5, s5⟩ := p4.push_state (v := s.rip)
    (by simp only [List.length_cons, List.length_nil]; omega) htop
  rw [s4, s3, s2, s1] at s5
  unfold deliver
  simp only [hbase]
  generalize Cpu.push _ s.rip = d at p5 s5
  cases error with
  | none =>
    refine ⟨p5.of_state rfl, ?_⟩
    simp only [SameGeneral, stateWords, cli, s5]
    rfl
  | some code =>
    obtain ⟨p6, s6⟩ := p5.push_state (v := code)
      (by simp only [List.length_cons, List.length_nil]; omega) htop
    refine ⟨p6.of_state rfl, ?_⟩
    simp only [SameGeneral, stateWords, cli, s6, s5]
    rfl

/-- With the general registers on top, the words are an `arch_cpu_state_t`. -/
theorem Pushed.frame_words {s : CpuState} {code : Nat}
    (h : Pushed mem base (code :: returnWords s) c) (hbase : base < 2 ^ 64)
    (hroom : SIZEOF_STATE ≤ base) (hs : SameGeneral s c.state) :
    Pushed mem base (stateWords { s with error := code }) (pushRegs c) ∧
      (pushRegs c).state.rsp = base - SIZEOF_STATE := by
  have hrsp := h.rsp
  simp only [returnWords, List.length_cons, List.length_nil] at hrsp
  rw [SIZEOF_STATE] at hroom ⊢
  obtain ⟨h1, h2⟩ := h.registers
    (by simp only [returnWords, List.length_cons, List.length_nil]; omega) hbase
  rw [hs] at h1
  refine ⟨h1, ?_⟩
  rw [h2]
  show c.state.rsp - 128 = base - 176
  omega

/-- What a handler in C finds: a pointer to the interrupted state, on top of the stack,
and nothing changed in memory but the words of that state. -/
structure AtHandler (s : CpuState) (code : Nat) (mem : Mem) (base : Nat) (d : Cpu) : Prop where
  rsp : d.state.rsp = base - SIZEOF_STATE
  rdi : d.state.rdi = base - SIZEOF_STATE
  words : d.mem.At (base - SIZEOF_STATE) (stateWords { s with error := code })
  frame : ∀ x, x < base - SIZEOF_STATE ∨ base ≤ x → d.mem x = mem x

theorem Pushed.atHandler {s r : CpuState} {code : Nat}
    (h : Pushed mem base (stateWords { s with error := code }) c)
    (hrsp : c.state.rsp = base - SIZEOF_STATE) (h1 : r.rsp = base - SIZEOF_STATE)
    (h2 : r.rdi = base - SIZEOF_STATE) : AtHandler s code mem base { c with state := r } :=
  ⟨h1, h2, hrsp ▸ h.words, hrsp ▸ h.frame⟩

theorem isrEntry_spec {ist n : Nat} (handler : Nat) {error : Option Nat}
    (hroom : SIZEOF_STATE ≤ ist / 16 * 16) (hist : ist < 2 ^ 64)
    (herror : error.isSome ↔ n ∈ ERROR_VECTORS) (s : CpuState) (mem : Mem) :
    ∃ code, (∀ e, error = some e → code = e) ∧
      AtHandler s code mem (ist / 16 * 16) (isrEntry n (deliver ist handler error ⟨s, mem⟩)) ∧
      (isrEntry n (deliver ist handler error ⟨s, mem⟩)).state.rsi = n := by
  have htop : ist / 16 * 16 < 2 ^ 64 := by omega
  obtain ⟨hp, hs⟩ := deliver_frame handler error
    (by rw [SIZEOF_STATE] at hroom; omega) hist s mem
  generalize deliver ist handler error ⟨s, mem⟩ = c at hp hs
  generalize ist / 16 * 16 = base at hroom htop hp
  unfold isrEntry
  cases error with
  | some e =>
    rw [if_pos (herror.mp rfl)]
    obtain ⟨h1, h2⟩ := hp.frame_words htop hroom hs
    exact ⟨e, fun _ he => Option.some.inj he, h1.atHandler h2 h2 h2, rfl⟩
  | none =>
    have hn : n ∉ ERROR_VECTORS := fun hn => by simpa using herror.mpr hn
    rw [if_neg hn]
    obtain ⟨h1, hstate⟩ := hp.skip
      (by rw [SIZEOF_STATE] at hroom
          simp only [Option.toList_none, List.nil_append, returnWords, List.length_cons,
            List.length_nil]
          omega) htop
    have hs' : SameGeneral s c.skip.state := by
      rw [hstate]
      exact hs
    obtain ⟨h2, h3⟩ := h1.frame_words htop hroom hs'
    exact ⟨_, by simp, h2.atHandler h3 h3 h3, rfl⟩

theorem xapicEntry_spec {ist : Nat} (handler : Nat) (hroom : SIZEOF_STATE ≤ ist / 16 * 16)
    (hist : ist < 2 ^ 64) (s : CpuState) (mem : Mem) :
    ∃ code, AtHandler s code mem (ist / 16 * 16)
      (xapicEntry (deliver ist handler none ⟨s, mem⟩)) := by
  have htop : ist / 16 * 16 < 2 ^ 64 := by omega
  obtain ⟨hp, hs⟩ := deliver_frame handler none
    (by rw [SIZEOF_STATE] at hroom; omega) hist s mem
  generalize deliver ist handler none ⟨s, mem⟩ = c at hp hs
  generalize ist / 16 * 16 = base at hroom htop hp
  have hcli := hp.of_state (s := cli c.state) rfl
  obtain ⟨h1, hstate⟩ := hcli.skip
    (by rw [SIZEOF_STATE] at hroom
        simp only [Option.toList_none, List.nil_append, returnWords, List.length_cons,
          List.length_nil]
        omega) htop
  have hs' : SameGeneral s (Cpu.skip { c with state := cli c.state }).state := by
    rw [hstate]
    exact hs
  obtain ⟨h2, h3⟩ := h1.frame_words htop hroom hs'
  exact ⟨_, h2.atHandler h3 h3 h3⟩

/-! ## Main results -/

/-- The registers proper: the error code is only a word of the frame. -/
def registersOf (s : CpuState) : CpuState := { s with error := 0 }

/-- **An interrupt is invisible.** For each of the 256 vectors, with an error code where the
processor pushes one: a handler in C is called with a pointer to a complete copy of the
interrupted registers and with the number of the vector; and if it leaves the stack and
that copy as they were, the code goes on with exactly the registers it had, in the memory
that the handler left. -/
theorem interrupt_invisible {ist handler n : Nat} {error : Option Nat}
    (hroom : SIZEOF_STATE ≤ ist / 16 * 16) (hist : ist < 2 ^ 64)
    (herror : error.isSome ↔ n ∈ ERROR_VECTORS) (c : Cpu) (isr : Cpu → Cpu)
    (hrsp : ∀ d, (isr d).state.rsp = d.state.rsp)
    (hmem : ∀ d x, ist / 16 * 16 - SIZEOF_STATE ≤ x → x < ist / 16 * 16 →
      (isr d).mem x = d.mem x) :
    ∃ d, d = isrEntry n (deliver ist handler error c) ∧ d.state.rsi = n ∧
      (∃ code, (∀ e, error = some e → code = e) ∧
        d.mem.At d.state.rdi (stateWords { c.state with error := code })) ∧
      registersOf (isrExit (isr d)).state = registersOf c.state ∧
      (isrExit (isr d)).mem = (isr d).mem := by
  obtain ⟨s, mem⟩ := c
  obtain ⟨code, hcode, hat, hrsi⟩ := isrEntry_spec handler hroom hist herror s mem
  refine ⟨_, rfl, hrsi, ⟨code, hcode, ?_⟩, ?_⟩
  · rw [hat.rdi]
    exact hat.words
  generalize isrEntry n (deliver ist handler error ⟨s, mem⟩) = d at hat
  have hr := (hrsp d).trans hat.rsp
  have hm := hmem d
  generalize isr d = e at hr hm
  obtain ⟨r, mem'⟩ := e
  have hwords : mem'.At r.rsp (stateWords { s with error := code }) := by
    have hr' : r.rsp = ist / 16 * 16 - SIZEOF_STATE := hr
    rw [hr']
    refine hat.words.congr fun x h1 h2 => hm x h1 ?_
    rw [stateWords_length] at h2
    omega
  have hlt : r.rsp + SIZEOF_STATE < 2 ^ 64 := by
    have hr' : r.rsp = ist / 16 * 16 - SIZEOF_STATE := hr
    omega
  rw [isrExit, restore_eq mem' hlt hwords]
  exact ⟨rfl, rfl⟩

theorem interrupt_invisible_page_fault : ∃ d,
    d = isrEntry 0xE (deliver 0x2000 0x1234 (some 6) ⟨{ rip := 0x400000, rax := 7 }, fun _ => 0⟩) ∧
    d.mem.At d.state.rdi (stateWords { rip := 0x400000, rax := 7, error := 6 }) ∧
    (isrExit d).state.rax = 7 := by
  obtain ⟨d, hd, -, ⟨code, hcode, hwords⟩, hback, -⟩ :=
    @interrupt_invisible 0x2000 0x1234 0xE (some 6)
    (show SIZEOF_STATE ≤ 0x2000 / 16 * 16 by decide) (by decide)
    (show (some 6).isSome ↔ 0xE ∈ ERROR_VECTORS by decide)
    ⟨{ rip := 0x400000, rax := 7 }, fun _ => 0⟩ id (by simp) (by simp)
  refine ⟨d, hd, ?_, ?_⟩
  · rw [hcode 6 rfl] at hwords
    exact hwords
  · exact congrArg CpuState.rax hback

end GaOS.L4.Entry
