import I370Linux.ByteImage
import I370Linux.Signals
import I370Linux.UserRead

/-! # Signal frames

The model of `setup_trampoline`, `setup_frame`, `handle_signal` and `i370_sys_sigreturn` of
`arch/i370/kernel/signal.c`.  A frame holds the interrupt state, sixteen bytes of code and the stack
frame of the handler; the handler returns to the code, which loads the number of the system call and
the address of the saved state and executes `SVC 0`.

The frame is written and read by the user memory routines, and the user sees what they leave.  The four
instructions of the trampoline are executed by a small machine (`Cpu.step`), so that the offsets in the
hand-assembled words are checked and not assumed.  Left out are `setup_rt_frame`, which halts, and the
messages.

With no page of the frame swapped out when it is written and none of the saved state when it is read,
the registers and the address of the PSW come back as they were; the mask of blocked signals does not:
delivery adds to `current->blocked` and `i370_sys_sigreturn` does not take it away
(`transparent_iff`). -/

namespace I370Linux.SignalFrame

open ByteImage hiding Byte
open Function PageTable UserCopy Vma
open BitVec (ofNat)
open Signals (SigSet)

abbrev SA_SIGINFO : Word := 0x00000004
abbrev SA_NODEFER : Word := 0x40000000
abbrev SA_ONESHOT : Word := 0x80000000
abbrev SIG_DFL : Word := 0
abbrev NR_sigreturn : Word := 119

abbrev Reg := BitVec 4

/-! ### Structures -/

/-- `struct pt_regs`, the interrupt state; the PSW is its two words. -/
structure PtRegs where
  unused0 : Word
  unused1 : Word
  callerSp : Word
  unused2 : Word
  pswFlags : Word
  pswAddr : Word
  irregs : Reg → Word
  oldregs : Word
  unused3 : Word

/-- The register at each place of `irregs_t`, which starts with register 11. -/
def regAt (k : ℕ) : Reg := ofNat 4 (k + 11)

/-- The place of a register in `irregs_t`. -/
def placeOf (r : Reg) : ℕ := (r - 11).toNat

def PtRegs.words (regs : PtRegs) : List Word :=
  [regs.unused0, regs.unused1, regs.callerSp, regs.unused2, regs.pswFlags, regs.pswAddr] ++
    (List.range 16).map (fun k => regs.irregs (regAt k)) ++ [regs.oldregs, regs.unused3]

abbrev offPswAddr : ℕ := 0x14
abbrev offIrregs : ℕ := 0x18
abbrev sizeIstate : ℕ := 0x60

/-- The offsets of `struct sigframe`. -/
abbrev offTramp : ℕ := sizeIstate
abbrev offCallee : ℕ := offTramp + 16
abbrev offArgs : ℕ := offCallee + 88
abbrev sizeSigframe : ℕ := 208

structure KSigaction where
  saHandler : Word
  saFlags : Word
  saMask : SigSet

/-- The parts of the task and of its storage that signals touch. -/
structure Task (ε : Type*) where
  regs : PtRegs
  blocked : SigSet
  kernel : Kernel ε

def addr31 (a : Word) : BitVec 31 := a.setWidth 31

/-! ### Delivery -/

/-- `setup_trampoline`, on the image of the frame. -/
def setupTrampoline (img : ℕ → Byte) (code : ℕ) (istate : Word) : ℕ → Byte :=
  let img := putInt img code (0x41100000 + NR_sigreturn) 4
  let img := putInt img (code + 4) 0x0d30 2
  let img := putInt img (code + 6) 0x58503006 4
  let img := putInt img (code + 10) 0x0a00 2
  putInt img (code + 12) istate 4

/-- `verify_area`: the sum has no high bit. -/
def verifyArea (addr : Word) (size : ℕ) : Bool := (addr + ofNat 32 size) &&& 0x80000000 = 0

/-- The frame that `setup_frame` builds: zeros, the state, the argument and the trampoline. -/
def sigframe (signo : Word) (regs : PtRegs) (istate : Word) : ℕ → Byte :=
  let img := putWords (fun _ => 0) 0 regs.words
  let img := putWord img offArgs signo
  setupTrampoline img offTramp istate

section

variable {ε : Type*} (fault : FaultHandler ε)

/-- `setup_frame`; `none` is the exit of the task or a halt. -/
def setupFrame (signo : Word) (ka : KSigaction) (t : Task ε) : Option (Word × Task ε) :=
  let uhandAddr := ka.saHandler ||| 0x80000000
  let frbottom := t.regs.irregs 11
  let frtop := frbottom + ofNat 32 offCallee
  if verifyArea frbottom sizeSigframe then
    let irregs : Reg → Word := fun _ => 0
    let irregs := update irregs 11 frtop
    let irregs := update irregs 15 uhandAddr
    let irregs := update irregs 14 (frbottom + ofNat 32 offTramp)
    let istate := frbottom
    (copyToUser fault false t.kernel frbottom.toNat (sigframe signo t.regs istate) sizeSigframe).map fun kernel =>
      (uhandAddr, ⟨{ t.regs with irregs := irregs, pswAddr := uhandAddr }, t.blocked, kernel⟩)
  else none

/-- `handle_signal`: what it returns, the action and the task afterwards. -/
def handleSignal (sig : ℕ) (ka : KSigaction) (t : Task ε) : Option (Word × KSigaction × Task ε) :=
  if ka.saFlags &&& SA_SIGINFO ≠ 0 then none
  else
    match setupFrame fault (ofNat 32 sig) ka t with
    | none => none
    | some (rc, t) =>
      let ka := if ka.saFlags &&& SA_ONESHOT ≠ 0 then { ka with saHandler := SIG_DFL } else ka
      let t := if ka.saFlags &&& SA_NODEFER = 0 then
          { t with blocked := (t.blocked ||| ka.saMask).sigaddset sig }
        else t
      some (rc, ka, t)

/-! ### Return -/

/-- `i370_sys_sigreturn`; `none` is the exit of the task or a halt. -/
def sysSigreturn (istate : Word) (t : Task ε) : Option (Task ε) :=
  if verifyArea istate sizeIstate then
    (copyFromUser fault false t.kernel (fun _ => 0) (istate + ofNat 32 offIrregs).toNat 64).bind
      fun (kernel, irregs) =>
        (copyFromUser fault false kernel (fun _ => 0) (istate + ofNat 32 offPswAddr).toNat 4).map
          fun (kernel, addr) =>
            { t with
              regs := { t.regs with irregs := fun r => getWord irregs (4 * placeOf r), pswAddr := getWord addr 0 }
              kernel := kernel }
  else none

end

/-- The processor in user mode, with 31-bit addresses. -/
structure Cpu where
  gr : Reg → Word
  addr : Word

inductive Event
  | next (c : Cpu)
  | svc (code : Byte) (c : Cpu)
  | unknown

namespace Cpu

/-- The address that an index, a base and a displacement give; register 0 stands for no register. -/
def effective (c : Cpu) (x b : Reg) (d : BitVec 12) : Word :=
  ((if x = 0 then 0 else c.gr x) + (if b = 0 then 0 else c.gr b) + d.setWidth 32) &&& 0x7fffffff

/-- One instruction of those that the trampoline uses: `LA`, `BASR`, `L` and `SVC`. -/
def step (mem : BitVec 31 → Byte) (c : Cpu) : Event :=
  let b := view mem (addr31 c.addr)
  let r1 : Reg := (b 1).extractLsb' 4 4
  let r2 : Reg := (b 1).extractLsb' 0 4
  let base : Reg := (b 2).extractLsb' 4 4
  let disp : BitVec 12 := (b 2).extractLsb' 0 4 ++ b 3
  if b 0 = 0x41 then
    .next ⟨update c.gr r1 (c.effective r2 base disp), c.addr + 4⟩
  else if b 0 = 0x0d then
    .next ⟨update c.gr r1 ((c.addr + 2) ||| 0x80000000),
      if r2 = 0 then c.addr + 2 else c.gr r2⟩
  else if b 0 = 0x58 then
    .next ⟨update c.gr r1 (getWord (view mem (addr31 (c.effective r2 base disp))) 0),
      c.addr + 4⟩
  else if b 0 = 0x0a then .svc (b 1) { c with addr := c.addr + 2 }
  else .unknown

/-- At most `n` instructions, up to a system call. -/
def run (mem : BitVec 31 → Byte) : ℕ → Cpu → Event
  | 0, c => .next c
  | n + 1, c =>
    match c.step mem with
    | .next c => run mem n c
    | e => e

/-! Each instruction, from its bytes. -/

section
variable {mem : BitVec 31 → Byte} {c : Cpu} {b1 b2 b3 : Byte}

theorem run_next {c' : Cpu} {n : ℕ} (h : c.step mem = .next c') : c.run mem (n + 1) = c'.run mem n := by
  simp only [run, h]

variable (h1 : view mem (addr31 c.addr) 1 = b1)
include h1

theorem step_basr (h0 : view mem (addr31 c.addr) 0 = 0x0d) :
    c.step mem = .next ⟨update c.gr (b1.extractLsb' 4 4) ((c.addr + 2) ||| 0x80000000),
      if b1.extractLsb' 0 4 = 0 then c.addr + 2 else c.gr (b1.extractLsb' 0 4)⟩ := by
  subst h1
  unfold step
  simp only [h0]
  rfl

theorem step_svc (h0 : view mem (addr31 c.addr) 0 = 0x0a) :
    c.step mem = .svc b1 { c with addr := c.addr + 2 } := by
  subst h1
  unfold step
  simp only [h0]
  rfl

variable (h2 : view mem (addr31 c.addr) 2 = b2) (h3 : view mem (addr31 c.addr) 3 = b3)
include h2 h3

theorem step_la (h0 : view mem (addr31 c.addr) 0 = 0x41) :
    c.step mem = .next ⟨update c.gr (b1.extractLsb' 4 4)
      (c.effective (b1.extractLsb' 0 4) (b2.extractLsb' 4 4) (b2.extractLsb' 0 4 ++ b3)),
      c.addr + 4⟩ := by
  subst h1 h2 h3
  exact if_pos h0

theorem step_l (h0 : view mem (addr31 c.addr) 0 = 0x58) :
    c.step mem = .next ⟨update c.gr (b1.extractLsb' 4 4)
      (getWord (view mem (addr31 (c.effective (b1.extractLsb' 0 4) (b2.extractLsb' 4 4)
        (b2.extractLsb' 0 4 ++ b3)))) 0), c.addr + 4⟩ := by
  subst h1 h2 h3
  unfold step
  simp only [h0]
  rfl

end

end Cpu

/-! ### The frame in storage -/

theorem regAt_placeOf : ∀ r : Reg, regAt (placeOf r) = r ∧ placeOf r < 16 := by decide

theorem words_irregs (regs : PtRegs) (r : Reg) : regs.words[6 + placeOf r]? = some (regs.irregs r) := by
  obtain ⟨hreg, hlt⟩ := regAt_placeOf r
  have hk : ∀ k < 16, regs.words[6 + k]? = some (regs.irregs (regAt k)) := by
    intro k hk
    interval_cases k <;> rfl
  rw [hk _ hlt, hreg]

variable {e i : ℕ} {a : Word} {c : Cpu}

theorem getWord_sigframe {signo istate : Word} {regs : PtRegs} {v : Word}
    (h : regs.words[i]? = some v) : getWord (sigframe signo regs istate) (4 * i) = v := by
  have hi : i < 24 := by
    have := (List.getElem?_eq_some_iff.mp h).1
    simpa [PtRegs.words] using this
  have hwords : getWord (putWords (fun _ => 0) 0 regs.words) (0 + 4 * i) = v := getWord_putWords h
  -- the other stores are behind the state
  simp only [sigframe, setupTrampoline, putWord, offTramp, offArgs, offCallee, sizeIstate]
  iterate 6 rw [getWord_putInt (by omega)]
  rw [← hwords, zero_add]

def trampCode : List Byte := [0x41, 0x10, 0x00, 0x77, 0x0d, 0x30, 0x58, 0x50, 0x30, 0x06, 0x0a, 0x00]

theorem setupTrampoline_code (img : ℕ → Byte) (code : ℕ) (istate : Word) :
    ∀ i < 12, some (setupTrampoline img code istate (code + i)) = trampCode[i]? := by
  intro i hi
  interval_cases i <;> simp [setupTrampoline, putInt, PagedStore.blit, bytesOf, trampCode]

theorem setupTrampoline_literal (img : ℕ → Byte) (code : ℕ) (istate : Word) :
    getWord (setupTrampoline img code istate) (code + 12) = istate :=
  getWord_putWord _ _ _

/-! ### The trampoline runs -/

theorem addr31_add (a : Word) (n : ℕ) : addr31 (a + ofNat 32 n) = addr31 a + ofNat 31 n := by
  unfold addr31
  rw [BitVec.setWidth_add _ _ (by decide), BitVec.setWidth_ofNat_of_le (by decide)]

theorem addr31_link (a : Word) (n : ℕ) :
    addr31 (((a ||| 0x80000000) + ofNat 32 n) &&& 0x7fffffff) = addr31 a + ofNat 31 n := by
  have hmask : addr31 (((a ||| 0x80000000) + ofNat 32 n) &&& 0x7fffffff) =
      addr31 ((a ||| 0x80000000) + ofNat 32 n) := by
    unfold addr31
    rw [BitVec.setWidth_and, show (0x7fffffff : Word).setWidth 31 = BitVec.allOnes 31 by decide,
      BitVec.and_allOnes]
  have hlink : addr31 (a ||| 0x80000000) = addr31 a := by
    unfold addr31
    rw [BitVec.setWidth_or, show (0x80000000 : Word).setWidth 31 = 0#31 by decide, BitVec.or_zero]
  rw [hmask, addr31_add, hlink]

/-- The frame of a task stands in storage, as far as the saved state and the code go. -/
def Stands (mem : BitVec 31 → Byte) (signo : Word) (regs : PtRegs) : Prop :=
  ∀ d < offCallee, view mem (addr31 (regs.irregs 11)) d = sigframe signo regs (regs.irregs 11) d

/-- An address is that of byte `e` of the trampoline. -/
def InTramp (regs : PtRegs) (a : Word) (e : ℕ) : Prop :=
  addr31 a = addr31 (regs.irregs 11) + ofNat 31 (offTramp + e)

variable {mem : BitVec 31 → Byte} {signo : Word} {regs : PtRegs}

theorem InTramp.add (h : InTramp regs a e) (n : ℕ) : InTramp regs (a + ofNat 32 n) (e + n) := by
  unfold InTramp at *
  rw [addr31_add, h, BitVec.add_assoc, ← BitVec.ofNat_add, Nat.add_assoc]

section

variable (h : Stands mem signo regs)
include h

theorem Stands.code (ha : InTramp regs a e) {b : Byte}
    (hb : trampCode[e + i]? = some b) : view mem (addr31 a) i = b := by
  have hlt : e + i < 12 := by
    simpa [trampCode] using (List.getElem?_eq_some_iff.mp hb).1
  have hin : offTramp + e + i < offCallee := by
    simp only [offCallee]
    omega
  rw [ha, view_add, h _ hin, Nat.add_assoc]
  have hcode := setupTrampoline_code
    (putWord (putWords (fun _ => 0) 0 regs.words) offArgs signo) offTramp (regs.irregs 11) (e + i) hlt
  rw [hb, Option.some.injEq] at hcode
  exact hcode

theorem Stands.literal (ha : InTramp regs a 12) : getWord (view mem (addr31 a)) 0 = regs.irregs 11 := by
  have hlit := setupTrampoline_literal
    (putWord (putWords (fun _ => 0) 0 regs.words) offArgs signo) offTramp (regs.irregs 11)
  rw [ha]
  refine Eq.trans ?_ hlit
  unfold getWord
  simp only [view_add]
  rw [h _ (by decide), h _ (by decide), h _ (by decide), h _ (by decide)]
  rfl

theorem Stands.step_number (hc : InTramp regs c.addr 0) :
    ∃ c', c.step mem = .next c' ∧ InTramp regs c'.addr 4 ∧ c'.gr 1 = NR_sigreturn := by
  refine ⟨_, Cpu.step_la (h.code hc (i := 1) rfl) (h.code hc (i := 2) rfl) (h.code hc (i := 3) rfl)
    (h.code hc (i := 0) rfl), hc.add 4, ?_⟩
  have hdisp : c.effective 0 0 119 = NR_sigreturn := by
    unfold Cpu.effective
    rw [if_pos rfl]
    decide
  exact hdisp

theorem Stands.step_base (hc : InTramp regs c.addr 4) :
    ∃ c', c.step mem = .next c' ∧ InTramp regs c'.addr 6 ∧ c'.gr 1 = c.gr 1 ∧
      c'.gr 3 = c'.addr ||| 0x80000000 :=
  ⟨_, Cpu.step_basr (h.code hc (i := 1) rfl) (h.code hc (i := 0) rfl), hc.add 2, rfl, rfl⟩

theorem Stands.step_state (hc : InTramp regs c.addr 6) (h3 : c.gr 3 = c.addr ||| 0x80000000) :
    ∃ c', c.step mem = .next c' ∧ InTramp regs c'.addr 10 ∧ c'.gr 1 = c.gr 1 ∧ c'.gr 5 = regs.irregs 11 := by
  refine ⟨_, Cpu.step_l (h.code hc (i := 1) rfl) (h.code hc (i := 2) rfl) (h.code hc (i := 3) rfl)
    (h.code hc (i := 0) rfl), hc.add 4, rfl, ?_⟩
  have hlit : InTramp regs (c.effective 0 3 6) 12 := by
    have hzero : ∀ a : Word, 0 + a = a := BitVec.zero_add
    unfold Cpu.effective
    rw [if_pos rfl, if_neg (by decide), h3, hzero]
    unfold InTramp
    rw [show BitVec.setWidth 32 (6 : BitVec 12) = ofNat 32 6 by decide, addr31_link]
    exact (addr31_add _ _).symm.trans (hc.add 6)
  exact h.literal hlit

/-- **The trampoline.**  From its first byte it runs to `SVC 0` with the number of `sigreturn` in
register 1 and the address of the saved state in register 5. -/
theorem Stands.run (hc : InTramp regs c.addr 0) :
    ∃ c', c.run mem 4 = .svc 0 c' ∧ c'.gr 1 = NR_sigreturn ∧ c'.gr 5 = regs.irregs 11 := by
  obtain ⟨c₁, hs₁, hc₁, hnr⟩ := h.step_number hc
  obtain ⟨c₂, hs₂, hc₂, hnr₂, h3⟩ := h.step_base hc₁
  obtain ⟨c₃, hs₃, hc₃, hnr₃, h5⟩ := h.step_state hc₂ h3
  have hs₄ := Cpu.step_svc (h.code hc₃ (i := 1) rfl) (h.code hc₃ (i := 0) rfl)
  refine ⟨{ c₃ with addr := c₃.addr + 2 }, ?_, ?_, h5⟩
  · rw [Cpu.run_next hs₁, Cpu.run_next hs₂, Cpu.run_next hs₃]
    simp only [Cpu.run, hs₄]
  · exact hnr₃.trans (hnr₂.trans hnr)

end

/-! ### Delivery and return -/

section

variable {ε : Type*} {backing : VmArea → ℕ → Byte} {swap : Pte → ℕ → Byte} {fault : FaultHandler ε} {sig : ℕ}
  {ka : KSigaction} {t t' : Task ε} {k : Kernel ε}

/-- What the user sees, by addresses of 31 bits. -/
def userMem (backing : VmArea → ℕ → Byte) (swap : Pte → ℕ → Byte) (k : Kernel ε) : BitVec 31 → Byte :=
  fun x => user backing swap k x.toNat

theorem view_userMem {d : ℕ} (h : a.toNat + d < taskSize) :
    view (userMem backing swap k) (addr31 a) d = user backing swap k (a.toNat + d) := by
  have hsum : (addr31 a + ofNat 31 d).toNat = a.toNat + d := by
    simp only [taskSize] at h
    rw [addr31, BitVec.toNat_add, BitVec.toNat_setWidth, BitVec.toNat_ofNat]
    omega
  rw [view, userMem, hsum]

theorem toNat_add_ofNat {n : ℕ} (h : a.toNat + n < 2 ^ 32) : (a + ofNat 32 n).toNat = a.toNat + n := by
  rw [BitVec.toNat_add, BitVec.toNat_ofNat]
  omega

theorem verifyArea_of_fits {n : ℕ} (h : a.toNat + n < taskSize) : verifyArea a n = true := by
  have hmsb : (a + ofNat 32 n).msb = false := by
    simp only [taskSize] at h
    rw [BitVec.msb_eq_false_iff_two_mul_lt, toNat_add_ofNat (by omega)]
    omega
  rw [verifyArea, decide_eq_true_eq]
  apply BitVec.eq_of_getLsbD_eq
  intro i hi
  rw [BitVec.getLsbD_and]
  obtain rfl | hi' := eq_or_ne i 31
  · rw [BitVec.msb_eq_getLsbD_last] at hmsb
    rw [show (a + ofNat 32 n).getLsbD 31 = false from hmsb]
    rfl
  · have hbit : (0x80000000 : Word).getLsbD i = false := by
      interval_cases i <;> first | rfl | exact absurd rfl hi'
    rw [hbit, Bool.and_false]
    simp

/-- The mask of blocked signals in the handler. -/
def blockedIn (sig : ℕ) (ka : KSigaction) (blocked : SigSet) : SigSet :=
  if ka.saFlags &&& SA_NODEFER = 0 then (blocked ||| ka.saMask).sigaddset sig else blocked

/-- A frame in writable areas is built, and the user sees it. -/
theorem handleSignal_some (hf : FaultOk backing swap fault) (hinfo : ka.saFlags &&& SA_SIGINFO = 0)
    (hlow : pageSize ≤ (t.regs.irregs 11).toNat)
    (hr : WritableRange t.kernel (t.regs.irregs 11).toNat sizeSigframe)
    (hp : Plain t.kernel (t.regs.irregs 11).toNat sizeSigframe)
    (hframe : verifyArea (t.regs.irregs 11) sizeSigframe) :
    ∃ rc ka' t', handleSignal fault sig ka t = some (rc, ka', t') ∧
      Stored backing swap (sigframe (ofNat 32 sig) t.regs (t.regs.irregs 11)) t.kernel (t.regs.irregs 11).toNat 0
        sizeSigframe t'.kernel ∧
      t'.regs.irregs 14 = t.regs.irregs 11 + ofNat 32 offTramp ∧
      t'.blocked = blockedIn sig ka t.blocked := by
  have hcopy := storeLoop_stored hf (sigframe (ofNat 32 sig) t.regs (t.regs.irregs 11)) sizeSigframe 0 le_rfl hr hp
  have hflags : (if ka.saFlags &&& SA_ONESHOT ≠ 0 then { ka with saHandler := SIG_DFL } else ka).saFlags
      = ka.saFlags := by
    split_ifs <;> rfl
  have hmask : (if ka.saFlags &&& SA_ONESHOT ≠ 0 then { ka with saHandler := SIG_DFL } else ka).saMask
      = ka.saMask := by
    split_ifs <;> rfl
  unfold handleSignal setupFrame blockedIn
  simp only [hframe, copyToUser, if_true, Bool.false_eq_true, if_false, if_neg (not_lt.mpr hlow),
    Option.map_some, if_neg (not_not.mpr hinfo)]
  refine ⟨_, _, _, rfl, ?_⟩
  by_cases hdefer : ka.saFlags &&& SA_NODEFER = 0
  · simp only [hflags, hmask, if_pos hdefer]
    exact ⟨hcopy, rfl, trivial⟩
  · simp only [hflags, if_neg hdefer]
    exact ⟨hcopy, rfl, trivial⟩

/-- The handler has branched to the address in register 14, and the user sees the saved state and the
trampoline as they were; it may have stored anywhere else. -/
structure Returned (backing : VmArea → ℕ → Byte) (swap : Pte → ℕ → Byte) (t t' : Task ε) (k : Kernel ε) (c : Cpu) :
    Prop where
  kept : ∀ d < offCallee, user backing swap k ((t.regs.irregs 11).toNat + d) =
    user backing swap t'.kernel ((t.regs.irregs 11).toNat + d)
  back : addr31 c.addr = addr31 (t'.regs.irregs 14)

/-- The trampoline passes the address of the saved state, and `i370_sys_sigreturn` leaves the registers, the address of the
PSW and the mask as they were before delivery. -/
def Restores (backing : VmArea → ℕ → Byte) (swap : Pte → ℕ → Byte) (fault : FaultHandler ε) (t t' : Task ε)
    (k : Kernel ε) (c : Cpu) : Prop :=
  ∃ c', c.run (userMem backing swap k) 4 = .svc 0 c' ∧ c'.gr 1 = NR_sigreturn ∧ c'.gr 5 = t.regs.irregs 11 ∧
    ∀ regs', ∃ t'', sysSigreturn fault (c'.gr 5) ⟨regs', t'.blocked, k⟩ = some t'' ∧
      t''.regs.irregs = t.regs.irregs ∧ t''.regs.pswAddr = t.regs.pswAddr ∧ t''.blocked = t.blocked

section

variable (hreads : FaultReads backing swap fault) (hlow : pageSize ≤ (regs.irregs 11).toNat)
  (hlt : (regs.irregs 11).toNat + sizeIstate < taskSize)
  (hseen : ∀ d < sizeIstate, user backing swap k ((regs.irregs 11).toNat + d) =
    sigframe signo regs (regs.irregs 11) d)

include hreads hlow hlt hseen

/-- A copy out of the saved state gives the words of the saved state. -/
theorem copy_istate {off len : ℕ} (hoff : off + len ≤ sizeIstate)
    (hr : Readable backing k (regs.irregs 11).toNat ((regs.irregs 11).toNat + sizeIstate)) :
    ∃ k' img, copyFromUser fault false k (fun _ => 0) (regs.irregs 11 + ofNat 32 off).toNat len = some (k', img) ∧
      Seen backing swap (regs.irregs 11).toNat ((regs.irregs 11).toNat + sizeIstate) k k' ∧
      ∀ d i v, d + 4 ≤ len → off + d = 4 * i → regs.words[i]? = some v → getWord img d = v := by
  have hmax : (regs.irregs 11).toNat + sizeIstate < 2 ^ 32 := hlt.trans (by decide)
  have hva : (regs.irregs 11 + ofNat 32 off).toNat = (regs.irregs 11).toNat + off := toNat_add_ofNat (by omega)
  rw [hva]
  obtain ⟨k', img, hcopy, hkeep, himg⟩ := copyFromUser_reads hreads hr (fun _ => 0)
    (show pageSize ≤ (regs.irregs 11).toNat + off by omega) (by omega)
    (show (regs.irregs 11).toNat + off + len ≤ _ by omega)
  refine ⟨k', img, hcopy, hkeep, fun d i v hd hi hv => ?_⟩
  have hframe : getWord (sigframe signo regs (regs.irregs 11)) (4 * i) = v := getWord_sigframe hv
  rw [← hframe, ← hi]
  have hbyte : ∀ j < 4, img (d + j) = sigframe signo regs (regs.irregs 11) (off + d + j) := by
    intro j hj
    rw [himg (d + j) (by omega), ← hseen (off + d + j) (by omega)]
    congr 1
    omega
  unfold getWord
  rw [show img d = _ from hbyte 0 (by decide), hbyte 1 (by decide), hbyte 2 (by decide), hbyte 3 (by decide)]
  rfl

/-- `i370_sys_sigreturn` with a saved state that the user sees as it was written. -/
theorem sysSigreturn_some (hr : Readable backing k (regs.irregs 11).toNat ((regs.irregs 11).toNat + sizeIstate))
    (regs' : PtRegs) (blocked : SigSet) :
    ∃ k', sysSigreturn fault (regs.irregs 11) ⟨regs', blocked, k⟩ =
      some ⟨{ regs' with irregs := regs.irregs, pswAddr := regs.pswAddr }, blocked, k'⟩ := by
  obtain ⟨k₁, img₁, hcopy₁, hkeep, hword₁⟩ := copy_istate hreads hlow hlt hseen
    (show offIrregs + 64 ≤ sizeIstate by decide) hr
  have hseen' : ∀ d < sizeIstate, user backing swap k₁ ((regs.irregs 11).toNat + d) =
      sigframe signo regs (regs.irregs 11) d := fun d hd =>
    (hkeep.view _ (by omega) (by omega)).trans (hseen d hd)
  obtain ⟨k₂, img₂, hcopy₂, -, hword₂⟩ := copy_istate hreads hlow hlt hseen'
    (show offPswAddr + 4 ≤ sizeIstate by decide) (hr.seen hkeep)
  have hirregs : (fun r => getWord img₁ (4 * placeOf r)) = regs.irregs := by
    funext r
    have := (regAt_placeOf r).2
    exact hword₁ _ (6 + placeOf r) _ (by omega) (by simp only [offIrregs]; omega) (words_irregs regs r)
  refine ⟨k₂, ?_⟩
  rw [sysSigreturn, if_pos (verifyArea_of_fits hlt)]
  simp only [hcopy₁, hcopy₂, Option.bind_some, Option.map_some, hirregs,
    hword₂ 0 5 regs.pswAddr (by decide) (by decide) rfl]

end

theorem or_eq_self_iff (x y z : SigSet) : x ||| y ||| z = x ↔ x ||| y = x ∧ x ||| z = x := by
  constructor
  · intro h
    constructor <;> (apply BitVec.eq_of_getLsbD_eq; intro i _; rw [BitVec.getLsbD_or]; grind)
  · rintro ⟨hy, hz⟩
    rw [hy, hz]

theorem sigaddset_eq_iff (x : SigSet) (hsig : sig ≤ 64) : x.sigaddset sig = x ↔ x.sigismember sig := by
  unfold SigSet.sigaddset SigSet.sigismember
  constructor
  · intro h
    rw [← h, BitVec.getLsbD_or, BitVec.getLsbD_twoPow]
    simp
    omega
  · intro h
    apply BitVec.eq_of_getLsbD_eq
    intro i hi
    rw [BitVec.getLsbD_or, BitVec.getLsbD_twoPow]
    by_cases hik : sig - 1 = i
    · rw [← hik, h, Bool.true_or]
    · simp [hik]

theorem blockedIn_eq_iff (hsig : sig ≤ 64) (blocked : SigSet) :
    blockedIn sig ka blocked = blocked ↔
      ka.saFlags &&& SA_NODEFER ≠ 0 ∨ (blocked ||| ka.saMask = blocked ∧ blocked.sigismember sig) := by
  unfold blockedIn
  by_cases hdefer : ka.saFlags &&& SA_NODEFER = 0
  · rw [if_pos hdefer, or_iff_right (not_not.mpr hdefer), ← sigaddset_eq_iff _ hsig]
    exact or_eq_self_iff ..
  · rw [if_neg hdefer]
    exact iff_of_true rfl (.inl hdefer)

/-- After delivery the user sees the frame. -/
theorem Returned.seen {c : Cpu} (h : Returned backing swap t t' k c)
    (hs : Stored backing swap (sigframe signo t.regs (t.regs.irregs 11)) t.kernel (t.regs.irregs 11).toNat 0
      sizeSigframe t'.kernel) :
    ∀ d < offCallee, user backing swap k ((t.regs.irregs 11).toNat + d) =
      sigframe signo t.regs (t.regs.irregs 11) d := by
  intro d hd
  have hlt : d < sizeSigframe := hd.trans (by decide)
  rw [h.kept d hd, hs.inside _ (by omega) (by omega)]
  congr 1
  omega

/-- A return over the trampoline restores everything exactly if the mask in the handler was the one before. -/
theorem Returned.restores_iff (hreads : FaultReads backing swap fault) (hlow : pageSize ≤ (t.regs.irregs 11).toNat)
    (hr : WritableRange t.kernel (t.regs.irregs 11).toNat sizeSigframe)
    (hs : Stored backing swap (sigframe signo t.regs (t.regs.irregs 11)) t.kernel (t.regs.irregs 11).toNat 0
      sizeSigframe t'.kernel)
    (hr14 : t'.regs.irregs 14 = t.regs.irregs 11 + ofNat 32 offTramp) (h : Returned backing swap t t' k c)
    (hread : Readable backing k (t.regs.irregs 11).toNat ((t.regs.irregs 11).toNat + sizeIstate)) :
    Restores backing swap fault t t' k c ↔ t'.blocked = t.blocked := by
  have hfits : (t.regs.irregs 11).toNat + offCallee < taskSize :=
    lt_of_lt_of_le (Nat.add_lt_add_left (by decide) _) hr.fits
  have hseen := h.seen hs
  have hstands : Stands (userMem backing swap k) signo t.regs := fun d hd => by
    rw [view_userMem (by omega), hseen d hd]
  have hc : InTramp t.regs c.addr 0 := by
    unfold InTramp
    rw [h.back, hr14, addr31_add]
  obtain ⟨c', hrun, hnr, hgr5⟩ := hstands.run hc
  have hsys := sysSigreturn_some hreads hlow ((Nat.add_lt_add_left (by decide) _).trans hfits)
    (fun d hd => hseen d (hd.trans (by decide))) hread
  constructor
  · rintro ⟨c₂, -, -, hgr5', hback⟩
    obtain ⟨k', hk'⟩ := hsys t.regs t'.blocked
    obtain ⟨t'', hsome, -, -, hmask⟩ := hback t.regs
    rw [hgr5', hk', Option.some.injEq] at hsome
    rw [← hsome] at hmask
    exact hmask
  · intro hmask
    refine ⟨c', hrun, hnr, hgr5, fun regs' => ?_⟩
    obtain ⟨k', hk'⟩ := hsys regs' t'.blocked
    rw [hgr5, hk']
    exact ⟨_, rfl, rfl, rfl, hmask⟩

/-- **Signals and return.** A signal gets its frame if the frame lies in writable areas above the first page, with no
page of it swapped out.  When the handler returns and no page of the saved state is swapped out, everything is as it
was exactly if delivery added nothing to the mask. -/
theorem transparent_iff (hf : FaultOk backing swap fault) (hreads : FaultReads backing swap fault) (hsig : sig ≤ 64)
    (hinfo : ka.saFlags &&& SA_SIGINFO = 0) (hframe : verifyArea (t.regs.irregs 11) sizeSigframe)
    (hlow : pageSize ≤ (t.regs.irregs 11).toNat)
    (hr : WritableRange t.kernel (t.regs.irregs 11).toNat sizeSigframe)
    (hp : Plain t.kernel (t.regs.irregs 11).toNat sizeSigframe) :
    ∃ rc ka' t', handleSignal fault sig ka t = some (rc, ka', t') ∧
      ∀ k c, Returned backing swap t t' k c →
        Readable backing k (t.regs.irregs 11).toNat ((t.regs.irregs 11).toNat + sizeIstate) →
        (Restores backing swap fault t t' k c ↔
          ka.saFlags &&& SA_NODEFER ≠ 0 ∨ (t.blocked ||| ka.saMask = t.blocked ∧ t.blocked.sigismember sig)) := by
  obtain ⟨rc, ka', t', hdel, hs, hr14, hblocked⟩ := @handleSignal_some _ _ _ _ sig _ _ hf hinfo hlow hr hp hframe
  refine ⟨rc, ka', t', hdel, fun k c hret hread => ?_⟩
  rw [hret.restores_iff hreads hlow hr hs hr14 hread, hblocked, blockedIn_eq_iff hsig]

/-- After a copy to the range it can be read. -/
theorem readable_of_stored {src : ℕ → Byte} {va frm len n : ℕ} (hr : WritableRange t.kernel va len) (hn : n ≤ len)
    (hs : Stored backing swap src t.kernel va frm len k) : Readable backing k va (va + n) := by
  refine ⟨(Nat.add_le_add_left hn va).trans hr.fits, fun y h1 h2 => ?_,
    fun y h1 h2 h => h.2 (hs.present y h1 (by omega)),
    fun g y h1 h2 _ _ hg _ => absurd hg (hs.present g h1 (by omega)).not_empty⟩
  obtain ⟨a, ha, -⟩ := hr.writable y h1 (by omega)
  exact ⟨a, hs.areas.symm ▸ ha⟩

end

/-- A task with its stack on a page at 4096 and no signal blocked. -/
def quiet : Task Unit :=
  ⟨⟨0, 0, 0, 0, 0, 0x80002000, fun r => if r = 11 then 0x1000 else 0, 0, 0⟩, 0, onePage 0x10001⟩

theorem quiet_writable : WritableRange quiet.kernel (quiet.regs.irregs 11).toNat sizeSigframe :=
  onePage_writable _ (by decide)

theorem quiet_plain : Plain quiet.kernel (quiet.regs.irregs 11).toNat sizeSigframe :=
  onePage_plain (by decide) (by decide)

/-- With `SA_NODEFER` everything comes back from a handler that returns at once. -/
theorem transparent_nodefer : ∃ rc ka' t' c,
    handleSignal (idealFault (fun _ _ => 0) fun _ _ => 0) 2 ⟨0x3000, SA_NODEFER, 0⟩ quiet = some (rc, ka', t') ∧
      Restores (fun _ _ => 0) (fun _ _ => 0) (idealFault (fun _ _ => 0) fun _ _ => 0) quiet t' t'.kernel c := by
  obtain ⟨rc, ka', t', hdel, hiff⟩ := transparent_iff (idealFault_ok (fun _ _ => 0) fun _ _ => 0)
    (idealFault_reads (fun _ _ => 0) fun _ _ => 0) (show 2 ≤ 64 by decide)
    (show (⟨0x3000, SA_NODEFER, 0⟩ : KSigaction).saFlags &&& SA_SIGINFO = 0 by decide) (by decide) (by decide)
    quiet_writable quiet_plain
  obtain ⟨_, _, t₂, hdel₂, hs, -⟩ := @handleSignal_some _ _ _ _ 2 _ _ (idealFault_ok (fun _ _ => 0) fun _ _ => 0)
    (show (⟨0x3000, SA_NODEFER, 0⟩ : KSigaction).saFlags &&& SA_SIGINFO = 0 by decide) (by decide) quiet_writable
    quiet_plain (by decide)
  rw [hdel, Option.some.injEq, Prod.mk.injEq, Prod.mk.injEq] at hdel₂
  obtain ⟨-, -, rfl⟩ := hdel₂
  exact ⟨rc, ka', t', ⟨fun _ => 0, t'.regs.irregs 14⟩, hdel,
    (hiff _ _ ⟨fun _ _ => rfl, rfl⟩ (readable_of_stored quiet_writable (by decide) hs)).mpr (.inl (by decide))⟩

/-- **The mask stays changed.**  `SIGINT` with an action without flags is blocked after the return. -/
theorem handler_keeps_blocked : ∃ rc ka' t' c,
    handleSignal (idealFault (fun _ _ => 0) fun _ _ => 0) 2 ⟨0x3000, 0, 0⟩ quiet = some (rc, ka', t') ∧
      Returned (fun _ _ => 0) (fun _ _ => 0) quiet t' t'.kernel c ∧
      ¬ Restores (fun _ _ => 0) (fun _ _ => 0) (idealFault (fun _ _ => 0) fun _ _ => 0) quiet t' t'.kernel c := by
  obtain ⟨rc, ka', t', hdel, hs, hr14, hblocked⟩ := @handleSignal_some _ _ _ _ 2 ⟨0x3000, 0, 0⟩ _
    (idealFault_ok (fun _ _ => 0) fun _ _ => 0) (by decide) (by decide) quiet_writable quiet_plain (by decide)
  have hret : Returned (fun _ _ => 0) (fun _ _ => 0) quiet t' t'.kernel ⟨fun _ => 0, t'.regs.irregs 14⟩ :=
    ⟨fun _ _ => rfl, rfl⟩
  refine ⟨rc, ka', t', _, hdel, hret, ?_⟩
  rw [hret.restores_iff (idealFault_reads _ _) (by decide) quiet_writable hs hr14
    (readable_of_stored quiet_writable (by decide) hs), hblocked]
  decide

end I370Linux.SignalFrame
