import I370Linux.PageTable

/-! # The user memory routines of the i370

The model of `make_pages_present` and of `__copy_to_user`, `__copy_from_user`, `__clear_user` and
`put_user_data` of `arch/i370/kernel/mm.c`.  The routines walk the page tables themselves and store
to real storage.  They call the fault handler only for an empty entry, and take the frame out of any
other entry as it is.

`handle_mm_fault` is a parameter; `Kernel.rest` is the part of the kernel's state that only it looks
at.  A kernel buffer is a function from its offsets: it is no user storage.  Left out are the
messages for null pointers and the results, which are constant. -/

namespace I370Linux.UserCopy

open PagedStore Vma PageTable

/-- Real storage, and the segment table and the areas of `current->mm`. -/
structure Kernel (ε : Type*) where
  mem : ℕ → Byte
  pgd : Pgd
  areas : List VmArea
  rest : ε

variable {ε : Type*}

/-- `handle_mm_fault`: the area, the address and whether it is a write access. -/
abbrev FaultHandler (ε : Type*) := Kernel ε → VmArea → ℕ → Bool → Kernel ε

/-- `find_vma`: the first area that ends above the address. -/
def areaAt (areas : List VmArea) (addr : ℕ) : Option VmArea := areas.find? (fun a => addr < a.vmEnd)

section Routines

variable (fault : FaultHandler ε)

/-- The loop of `make_pages_present`. -/
def presentLoop (vma : VmArea) (write : Bool) (stop : ℕ) : ℕ → Kernel ε → ℕ → Kernel ε
  | 0, k, _ => k
  | n + 1, k, addr =>
    if addr < stop then presentLoop vma write stop n (fault k vma addr write) (addr + pageSize) else k

/-- `make_pages_present`.  It looks the area of the first address up and uses it for all pages. -/
def makePagesPresent (k : Kernel ε) (addr stop : ℕ) : Kernel ε :=
  match areaAt k.areas addr with
  | none => k
  | some vma => presentLoop fault vma (vma.vmFlags &&& VM_WRITE ≠ 0) stop (stop - addr) k addr

def loadWord (mem : ℕ → Byte) (x : ℕ) : BitVec 32 := mem x ++ mem (x + 1) ++ mem (x + 2) ++ mem (x + 3)

/-- The entry for `va`, after `make_pages_present (va, stop)` if it was empty.  A null pointer reads
the word at real address 0. -/
def translate (k : Kernel ε) (va stop : ℕ) : Kernel ε × Pte :=
  let k := if (findPte k.pgd va).all pteNone then makePagesPresent fault k va stop else k
  (k, (findPte k.pgd va).getD (loadWord k.mem 0))

/-- The loop of `__copy_to_user` and `__clear_user`: `src` is what goes to the range, page by page. -/
def storeLoop (src : ℕ → Byte) : ℕ → Kernel ε → ℕ → ℕ → ℕ → Kernel ε
  | 0, k, _, _, _ => k
  | n + 1, k, va, frm, len =>
    if len = 0 then k
    else
      let off := va % pageSize
      let (k, pte) := translate fault k va (va + len)
      let rlen := min len (pageSize - off)
      storeLoop src n { k with mem := blit k.mem (ptePage pte ||| off) src frm rlen }
        (va + rlen) (frm + rlen) (len - rlen)

/-- `__copy_to_user`.  With `inKernelCopy` the address is a real one; a null pointer halts. -/
def copyToUser (inKernelCopy : Bool) (k : Kernel ε) (va : ℕ) (src : ℕ → Byte) (len : ℕ) :
    Option (Kernel ε) :=
  if inKernelCopy then some { k with mem := blit k.mem va src 0 len }
  else if va < pageSize then none
  else some (storeLoop fault src len k va 0 len)

/-- The loop of `__copy_from_user`. -/
def loadLoop : ℕ → Kernel ε → (ℕ → Byte) → ℕ → ℕ → ℕ → Kernel ε × (ℕ → Byte)
  | 0, k, dst, _, _, _ => (k, dst)
  | n + 1, k, dst, too, va, len =>
    if len = 0 then (k, dst)
    else
      let off := va % pageSize
      let (k, pte) := translate fault k va (va + len)
      let rlen := min len (pageSize - off)
      loadLoop n k (blit dst too k.mem (ptePage pte ||| off) rlen)
        (too + rlen) (va + rlen) (len - rlen)

/-- `__copy_from_user`, with the buffer it fills. -/
def copyFromUser (inKernelCopy : Bool) (k : Kernel ε) (dst : ℕ → Byte) (va len : ℕ) :
    Option (Kernel ε × (ℕ → Byte)) :=
  if inKernelCopy then some (k, blit dst 0 k.mem va len)
  else if va < pageSize then none
  else some (loadLoop fault len k dst 0 va len)

/-- `__clear_user`; it and `put_user_data` ask only whether the kernel's page tables are in use. -/
def clearUser (swapperPgDir : Bool) (k : Kernel ε) (va len : ℕ) : Kernel ε :=
  if swapperPgDir then { k with mem := blit k.mem va (fun _ => 0) 0 len }
  else storeLoop fault (fun _ => 0) len k va 0 len

/-- The bytes of the low `n` bytes of `data` as a store of a `char`, `short` or `long` lays them out:
the high byte comes first. -/
def bigEndian (data : BitVec 32) (n : ℕ) : ℕ → Byte := fun i => (data >>> (8 * (n - 1 - i))).setWidth 8

/-- Store the low `n` bytes of `data` at real address `x`. -/
def storeInt (k : Kernel ε) (x : ℕ) (data : BitVec 32) (n : ℕ) : Kernel ε :=
  { k with mem := blit k.mem x (bigEndian data n) 0 n }

/-- `put_user_data`, translated.  A value that crosses a page is stored in two pieces, the rest by a
second call; `n` bounds the calls. -/
def putUserLoop : ℕ → Kernel ε → BitVec 32 → ℕ → ℕ → Kernel ε
  | 0, k, _, _, _ => k
  | n + 1, k, data, va, len =>
    let (k, pte) := translate fault k va (va + len)
    let off := va % pageSize
    let ra := (pte &&& PAGE_MASK).toNat ||| off
    if len = 1 then storeInt k ra data 1
    else if len = 2 then
      if off < 0xfff then storeInt k ra data 2
      else putUserLoop n (storeInt k ra data 1) (data.sshiftRight 8) (va + 1) 1
    else if len = 4 then
      if off < 0xffd then storeInt k ra data 4
      else if off = 0xffd then
        putUserLoop n (storeInt (storeInt k ra data 2) (ra + 2) (data.sshiftRight 16) 1)
          (data.sshiftRight 24) (va + 3) 1
      else if off = 0xffe then
        putUserLoop n (storeInt k ra data 2) (data.sshiftRight 16) (va + 2) 2
      else putUserLoop n (storeInt k ra data 1) (data.sshiftRight 8) (va + 1) 3
    else if len = 3 then storeInt (storeInt k ra data 2) (ra + 2) (data.sshiftRight 16) 1
    else k

def putUserData (swapperPgDir : Bool) (k : Kernel ε) (data : BitVec 32) (va len : ℕ) : Kernel ε :=
  if swapperPgDir then
    if len = 1 ∨ len = 2 ∨ len = 4 then storeInt k va data len else k
  else putUserLoop fault 2 k data va len

end Routines

theorem mod_lt_pageSize (va : ℕ) : va % pageSize < pageSize := Nat.mod_lt _ (by decide)

/-! ### The invariant rule -/

/-- What the routines keep on `[lo, hi)`: the faults they take and their stores to the pages of the
range keep `I`, and a fault leaves an entry to read. -/
structure RangeKeeps (fault : FaultHandler ε) (vmas : List VmArea) (I : Kernel ε → Prop)
    (lo hi : ℕ) : Prop where
  areas : ∀ k, I k → k.areas = vmas
  area : ∀ y, lo ≤ y → y < hi → ∃ vma, areaAt vmas y = some vma
  faults : ∀ k addr y vma, I k → lo ≤ y → y ≤ addr → addr < hi → areaAt vmas y = some vma →
    I (fault k vma addr (vma.vmFlags &&& VM_WRITE ≠ 0)) ∧
    (findPte (fault k vma addr (vma.vmFlags &&& VM_WRITE ≠ 0)).pgd addr).isSome = true ∧
    ∀ z, (findPte k.pgd z).isSome = true →
      (findPte (fault k vma addr (vma.vmFlags &&& VM_WRITE ≠ 0)).pgd z).isSome = true
  stores : ∀ k y pte f o src frm r, I k → lo ≤ y → y < hi → findPte k.pgd y = some pte →
    (f = ptePage pte ∨ f = (pte &&& PAGE_MASK).toNat) → o + r ≤ pageSize →
    I { k with mem := blit k.mem (f + o) src frm r }

section Rule

variable {fault : FaultHandler ε} {vmas : List VmArea} {I : Kernel ε → Prop} {lo hi : ℕ}
  (h : RangeKeeps fault vmas I lo hi)

include h

variable {stop va : ℕ} {k : Kernel ε}

theorem presentLoop_keeps {vma : VmArea} {y : ℕ} (hy : lo ≤ y) (harea : areaAt vmas y = some vma)
    (hstop : stop ≤ hi) (n : ℕ) : ∀ (k : Kernel ε) (addr : ℕ), y ≤ addr → I k →
    I (presentLoop fault vma (vma.vmFlags &&& VM_WRITE ≠ 0) stop n k addr) ∧
    ∀ z, (findPte k.pgd z).isSome = true → (findPte
      (presentLoop fault vma (vma.vmFlags &&& VM_WRITE ≠ 0) stop n k addr).pgd z).isSome = true := by
  induction n with
  | zero => exact fun k addr _ hk => ⟨hk, fun _ hz => hz⟩
  | succ n ih =>
    intro k addr hya hk
    rw [presentLoop]
    split
    · next hlt =>
      obtain ⟨hk', -, hmono⟩ := h.faults k addr y vma hk hy hya (by omega) harea
      obtain ⟨hI, hz⟩ := ih _ (addr + pageSize) (by omega) hk'
      exact ⟨hI, fun z hs => hz z (hmono z hs)⟩
    · exact ⟨hk, fun _ hz => hz⟩

theorem makePagesPresent_keeps (hk : I k) (hva : lo ≤ va)
    (hlt : va < stop) (hstop : stop ≤ hi) : I (makePagesPresent fault k va stop) ∧
      (findPte (makePagesPresent fault k va stop).pgd va).isSome = true := by
  obtain ⟨vma, harea⟩ := h.area va hva (by omega)
  rw [makePagesPresent, h.areas k hk, harea]
  obtain ⟨n, hn⟩ : ∃ n, stop - va = n + 1 := ⟨stop - va - 1, by omega⟩
  obtain ⟨hk', hsome, -⟩ := h.faults k va va vma hk hva le_rfl (by omega) harea
  simp only [hn, presentLoop, hlt, if_true]
  obtain ⟨hI, hz⟩ := presentLoop_keeps h hva harea hstop n _ (va + pageSize) (by omega) hk'
  exact ⟨hI, hz va hsome⟩

theorem translate_keeps (hk : I k) (hva : lo ≤ va)
    (hlt : va < stop) (hstop : stop ≤ hi) : I (translate fault k va stop).1 ∧
      findPte (translate fault k va stop).1.pgd va = some (translate fault k va stop).2 := by
  have hread : ∀ {k : Kernel ε}, (findPte k.pgd va).isSome = true →
      findPte k.pgd va = some ((findPte k.pgd va).getD (loadWord k.mem 0)) := by
    intro k hs
    obtain ⟨p, hp⟩ := Option.isSome_iff_exists.mp hs
    rw [hp, Option.getD_some]
  rw [translate]
  split
  · obtain ⟨hI, hs⟩ := makePagesPresent_keeps h hk hva hlt hstop
    exact ⟨hI, hread hs⟩
  · next hp =>
    refine ⟨hk, hread ?_⟩
    rcases hf : findPte k.pgd va with _ | p
    · rw [hf] at hp
      exact absurd rfl hp
    · rfl

theorem storeLoop_keeps (src : ℕ → Byte) (n : ℕ) : ∀ (k : Kernel ε) (va frm len : ℕ), lo ≤ va →
    va + len ≤ hi → I k → I (storeLoop fault src n k va frm len) := by
  induction n with
  | zero => exact fun k va frm len _ _ hk => hk
  | succ n ih =>
    intro k va frm len hva hend hk
    rw [storeLoop]
    split
    · exact hk
    · next hlen =>
      obtain ⟨hk', hp⟩ := translate_keeps h hk hva (show va < va + len by omega) hend
      refine ih _ _ _ _ (by omega) (by omega) ?_
      rw [or_offset (ptePage_mod _) (mod_lt_pageSize va)]
      refine h.stores _ va _ _ _ src frm _ hk' hva (by omega) hp (.inl rfl) ?_
      have := mod_lt_pageSize va
      omega

end Rule

end I370Linux.UserCopy
