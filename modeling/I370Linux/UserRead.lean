import I370Linux.UserFlatExact

/-! # Reading flat user memory

`__copy_from_user` reads what the user sees if no page of the range is swapped out and the area of one
empty page of the range says what the others hold.  A fault for reading may map a frame a second time,
as it does with the empty page, so the handler is only asked for the contents (`FaultReads`). -/

namespace I370Linux.UserCopy

open PagedStore Vma PageTable
open Kernel (frame_congr)

variable {ε : Type*}

/-- `k'` is `k` after a fault at `addr`, resolved with area `a`: the page is present with the right
contents, and the other pages are as they were. -/
structure Fetched (backing : VmArea → ℕ → Byte) (swap : Pte → ℕ → Byte) (k : Kernel ε) (a : VmArea)
    (addr : ℕ) (k' : Kernel ε) : Prop where
  present : k'.Present addr
  contents : ∀ y, y / pageSize = addr / pageSize →
    k'.mem (k'.frame addr + y % pageSize) = userVia backing swap k a y
  others : ∀ y < taskSize, y / pageSize ≠ addr / pageSize → k'.pte y = k.pte y ∧
    (k.Present y → k'.mem (k.frame y + y % pageSize) = k.mem (k.frame y + y % pageSize))
  areas : k'.areas = k.areas

/-- The handler brings the right contents in, for reading and for writing. -/
def FaultReads (backing : VmArea → ℕ → Byte) (swap : Pte → ℕ → Byte) (fault : FaultHandler ε) : Prop :=
  ∀ k a addr write, addr < taskSize → Fetched backing swap k a addr (fault k a addr write)

/-- The range lies in areas, no page of it is swapped out, and the area of an empty page says what the
other empty pages hold. -/
structure Readable (backing : VmArea → ℕ → Byte) (k : Kernel ε) (lo hi : ℕ) : Prop where
  fits : hi ≤ taskSize
  area : ∀ y, lo ≤ y → y < hi → ∃ a, areaAt k.areas y = some a
  resident : ∀ y, lo ≤ y → y < hi → ¬ k.Swapped y
  agree : ∀ g y, lo ≤ g → g < hi → lo ≤ y → y < hi → k.Empty g → k.Empty y →
    backing (areaOf k g) y = backing (areaOf k y) y

/-- From `k` to `k'` pages of the range have only come in, and the user sees the same there. -/
structure Seen (backing : VmArea → ℕ → Byte) (swap : Pte → ℕ → Byte) (lo hi : ℕ) (k k' : Kernel ε) :
    Prop where
  areas : k'.areas = k.areas
  empty : ∀ y, lo ≤ y → y < hi → k'.Empty y → k.Empty y
  resident : ∀ y, lo ≤ y → y < hi → ¬ k'.Swapped y
  view : ∀ y, lo ≤ y → y < hi → user backing swap k' y = user backing swap k y

theorem Resolved.fetched {backing : VmArea → ℕ → Byte} {swap : Pte → ℕ → Byte} {k k' : Kernel ε}
    {a : VmArea} {addr : ℕ} (h : Resolved backing swap k a addr k') : Fetched backing swap k a addr k' := by
  refine ⟨h.present, h.contents, fun y hy hne => ⟨h.others y hy hne, fun hp => ?_⟩, h.areas⟩
  obtain ⟨-, -, hmem⟩ | ⟨hown, hmem⟩ := h.storage
  · rw [hmem]
  · refine hmem _ ?_
    rw [base_eq (k.frame_mod y) (mod_lt_pageSize y)]
    exact hown y hy hne hp

section

variable {backing : VmArea → ℕ → Byte} {swap : Pte → ℕ → Byte} {fault : FaultHandler ε}
  {k k' k'' : Kernel ε} {lo hi : ℕ}

theorem Readable.refl (h : Readable backing k lo hi) : Seen backing swap lo hi k k :=
  ⟨rfl, fun _ _ _ he => he, h.resident, fun _ _ _ => rfl⟩

theorem Seen.trans (h : Seen backing swap lo hi k k') (h' : Seen backing swap lo hi k' k'') :
    Seen backing swap lo hi k k'' :=
  ⟨h'.areas.trans h.areas, fun y h1 h2 he => h.empty y h1 h2 (h'.empty y h1 h2 he), h'.resident,
    fun y h1 h2 => (h'.view y h1 h2).trans (h.view y h1 h2)⟩

theorem Readable.seen (h : Readable backing k lo hi) (hs : Seen backing swap lo hi k k') :
    Readable backing k' lo hi := by
  refine ⟨h.fits, fun y h1 h2 => ?_, hs.resident, fun g y g1 g2 y1 y2 hg hy => ?_⟩
  · rw [hs.areas]
    exact h.area y h1 h2
  · rw [areaOf_congr hs.areas, areaOf_congr hs.areas]
    exact h.agree g y g1 g2 y1 y2 (hs.empty g g1 g2 hg) (hs.empty y y1 y2 hy)

theorem Seen.present (h : Seen backing swap lo hi k k') {y : ℕ} (h1 : lo ≤ y) (h2 : y < hi)
    (hy : ¬ k'.Empty y) : k'.Present y := by
  by_contra hp
  exact h.resident y h1 h2 ⟨hy, hp⟩

variable (hf : FaultReads backing swap fault)
include hf

/-! ### Faults -/

/-- A fault at a page of the range, resolved with the area of an empty page of it. -/
theorem Seen.brought (hr : Readable backing k lo hi) (h : Seen backing swap lo hi k k') {g addr : ℕ}
    (hg : lo ≤ g) (hgh : g < hi) (hempty : k.Empty g) (haddr : addr < hi) (write : Bool) :
    Seen backing swap lo hi k (fault k' (areaOf k g) addr write) ∧
      ¬ (fault k' (areaOf k g) addr write).Empty addr ∧
      ∀ y, lo ≤ y → y < hi → ¬ k'.Empty y → ¬ (fault k' (areaOf k g) addr write).Empty y := by
  have hfits := hr.fits
  have hfetch := hf k' (areaOf k g) addr write (by omega)
  generalize fault k' (areaOf k g) addr write = k'' at hfetch
  have hpage : ∀ y, y / pageSize = addr / pageSize → k''.Present y := fun y hy =>
    hfetch.present.congr (k''.pte_congr hy)
  have hsame : ∀ y, lo ≤ y → y < hi → user backing swap k'' y = user backing swap k' y := by
    intro y h1 h2
    have harea := areaOf_congr hfetch.areas y
    obtain hy | hy := eq_or_ne (y / pageSize) (addr / pageSize)
    · have hc := hfetch.contents y hy
      rw [← frame_congr (k''.pte_congr hy)] at hc
      rw [user, userVia_of_present (hpage y hy), hc, user]
      by_cases he : k'.Empty y
      · rw [userVia_of_empty he, userVia_of_empty he, areaOf_congr h.areas]
        exact hr.agree g y hg hgh h1 h2 hempty (h.empty y h1 h2 he)
      · have hp := h.present h1 h2 he
        rw [userVia_of_present hp, userVia_of_present hp]
    · obtain ⟨hpte, hmem⟩ := hfetch.others y (by omega) hy
      rw [user, user, harea, userVia_congr hpte hmem]
  have hempty' : ∀ y, lo ≤ y → y < hi → k''.Empty y → k'.Empty y := by
    intro y h1 h2 he
    obtain hy | hy := eq_or_ne (y / pageSize) (addr / pageSize)
    · exact absurd he (hpage y hy).not_empty
    · exact he.congr (hfetch.others y (by omega) hy).1.symm
  refine ⟨⟨hfetch.areas.trans h.areas, fun y h1 h2 he => h.empty y h1 h2 (hempty' y h1 h2 he),
    fun y h1 h2 hs => ?_, fun y h1 h2 => (hsame y h1 h2).trans (h.view y h1 h2)⟩,
    hfetch.present.not_empty, fun y h1 h2 hne he => hne (hempty' y h1 h2 he)⟩
  obtain hy | hy := eq_or_ne (y / pageSize) (addr / pageSize)
  · exact hs.2 (hpage y hy)
  · exact h.resident y h1 h2 (hs.congr (hfetch.others y (by omega) hy).1.symm)

theorem Seen.presentLoop (hr : Readable backing k lo hi) {g stop : ℕ} (hg : lo ≤ g) (hgh : g < hi)
    (hempty : k.Empty g) (hstop : stop ≤ hi) (write : Bool) (n : ℕ) (h : Seen backing swap lo hi k k')
    (addr : ℕ) :
    Seen backing swap lo hi k (presentLoop fault (areaOf k g) write stop n k' addr) ∧
      ∀ y, lo ≤ y → y < hi → ¬ k'.Empty y →
        ¬ (UserCopy.presentLoop fault (areaOf k g) write stop n k' addr).Empty y := by
  induction n generalizing k' addr with
  | zero => exact ⟨h, fun _ _ _ hne => hne⟩
  | succ n ih =>
    rw [UserCopy.presentLoop]
    split
    · obtain ⟨hs, -, hne⟩ := h.brought hf hr hg hgh hempty (show addr < hi by omega) write
      obtain ⟨hs', hne'⟩ := ih hs (addr + pageSize)
      exact ⟨hs', fun y h1 h2 hy => hne' y h1 h2 (hne y h1 h2 hy)⟩
    · exact ⟨h, fun _ _ _ hne => hne⟩

/-- When the loop takes the entry for `va`, its page is in storage. -/
theorem Readable.reach (hr : Readable backing k lo hi) {va stop : ℕ} (hva : lo ≤ va) (hlt : va < stop)
    (hstop : stop ≤ hi) : Seen backing swap lo hi k (reach fault k va stop) ∧
      (UserCopy.reach fault k va stop).Present va := by
  rw [UserCopy.reach]
  split
  · next he =>
    obtain ⟨a, ha⟩ := hr.area va hva (by omega)
    have hareaOf : areaOf k va = a := by rw [areaOf, ha, Option.getD_some]
    obtain ⟨n, hn⟩ : ∃ n, stop - va = n + 1 := ⟨stop - va - 1, by omega⟩
    obtain ⟨hs, hne, -⟩ := hr.refl.brought hf hr hva (by omega) he (show va < hi by omega) (a.vmFlags &&& VM_WRITE ≠ 0)
    obtain ⟨hs', hne'⟩ := hs.presentLoop hf hr hva (by omega) he hstop (a.vmFlags &&& VM_WRITE ≠ 0) n
      (va + pageSize)
    rw [makePagesPresent, ha]
    simp only [hn, UserCopy.presentLoop, hlt, if_true]
    rw [hareaOf] at hs' hne' hne
    exact ⟨hs', hs'.present hva (by omega) (hne' va hva (by omega) hne)⟩
  · next he => exact ⟨hr.refl, (@Readable.refl _ _ swap _ _ _ hr).present hva (by omega) he⟩

/-! ### The copy -/

/-- `__copy_from_user` from a readable range at or above `PAGE_SIZE` gives what the user sees. -/
theorem copyFromUser_reads (hr : Readable backing k lo hi) (dst : ℕ → Byte) {va len : ℕ}
    (hpage : pageSize ≤ va) (hva : lo ≤ va) (hend : va + len ≤ hi) :
    ∃ k' dst', copyFromUser fault false k dst va len = some (k', dst') ∧ Seen backing swap lo hi k k' ∧
      ∀ j < len, dst' j = user backing swap k (va + j) := by
  obtain ⟨hs, hin, -⟩ := loadLoop_rule fault (Seen backing swap lo hi k) (user backing swap k) lo hi
    (fun k' y stop h hy hlt hstop => by
      obtain ⟨hseen, hp⟩ := (hr.seen h).reach hf hy hlt hstop
      refine ⟨h.trans hseen, hp.not_empty, fun z hz hzs hpage => ?_⟩
      rw [← (h.trans hseen).view z (by omega) (by omega), user,
        userVia_of_present (hp.congr (Kernel.pte_congr _ hpage)), frame_congr (Kernel.pte_congr _ hpage)])
    len k dst 0 va len le_rfl hva hend hr.refl
  refine ⟨_, (loadLoop fault len k dst 0 va len).2, ?_, hs, fun j hj => ?_⟩
  · rw [copyFromUser, if_neg Bool.false_ne_true, if_neg (by omega)]
  · rw [← hin j hj, zero_add]

end

theorem idealFault_reads (backing : VmArea → ℕ → Byte) (swap : Pte → ℕ → Byte) :
    FaultReads backing swap (idealFault backing swap : FaultHandler ε) :=
  fun k a addr _ haddr => (idealFault_ok backing swap k a addr haddr).fetched

end I370Linux.UserCopy
