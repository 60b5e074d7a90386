import I370Linux.UserCopy

/-! # Flat user memory

What a user program sees at an address is in real storage if its page is there, in the swap file if it
is swapped out, and otherwise what the area holds there.  A fault handler is `FaultOk` if it brings
the right contents in.  With such a handler `__copy_to_user` and `__copy_from_user` implement flat
user memory exactly if

* a swapped out page of the range is brought in by the `make_pages_present` for an empty page before
  it,
* no frame of the range is mapped a second time, and
* what that `make_pages_present` brings in for the areas behind the first one is what they hold. -/

namespace I370Linux.UserCopy

open PagedStore Vma PageTable

variable {ε : Type*}

namespace Kernel

variable (k : Kernel ε) (va : ℕ)

/-- The entry for `va` in the page tables of `current->mm`. -/
def pte : Pte := pteAt k.pgd va

def Empty : Prop := pteNone (k.pte va) = true

def Present : Prop := ptePresent (k.pte va) = true

def Swapped : Prop := ¬ k.Empty va ∧ ¬ k.Present va

instance : Decidable (k.Empty va) := inferInstanceAs (Decidable (_ = _))

instance : Decidable (k.Present va) := inferInstanceAs (Decidable (_ = _))

instance : Decidable (k.Swapped va) := inferInstanceAs (Decidable (_ ∧ _))

/-- The address the routines take for the page frame. -/
def frame : ℕ := ptePage (k.pte va)

/-- No other page of the address space is in the frame of `va`. -/
def Sole : Prop := k.Present va → ∀ z < taskSize, z / pageSize ≠ va / pageSize → k.Present z →
  k.frame z ≠ k.frame va

end Kernel

section Pages

variable {k k' : Kernel ε} {va y : ℕ}

theorem Kernel.pte_congr (k : Kernel ε) (h : y / pageSize = va / pageSize) : k.pte y = k.pte va :=
  pteAt_congr k.pgd h

theorem Kernel.Present.not_empty (h : k.Present va) : ¬ k.Empty va := by
  intro he
  rw [Kernel.Present, ptePresent, he] at h
  cases h

theorem Kernel.Empty.congr (h : k.Empty y) (hp : k'.pte va = k.pte y) : k'.Empty va := by
  rw [Kernel.Empty, hp]
  exact h

theorem Kernel.Present.congr (h : k.Present y) (hp : k'.pte va = k.pte y) : k'.Present va := by
  rw [Kernel.Present, hp]
  exact h

theorem Kernel.Swapped.congr (h : k.Swapped y) (hp : k'.pte va = k.pte y) : k'.Swapped va :=
  ⟨fun he => h.1 (he.congr hp.symm), fun hp' => h.2 (hp'.congr hp.symm)⟩

theorem Kernel.residence (k : Kernel ε) (va : ℕ) : k.Empty va ∨ k.Present va ∨ k.Swapped va := by
  by_cases he : k.Empty va
  · exact .inl he
  · by_cases hp : k.Present va
    · exact .inr (.inl hp)
    · exact .inr (.inr ⟨he, hp⟩)

theorem Kernel.frame_congr (hp : k'.pte va = k.pte y) : k'.frame va = k.frame y := by
  rw [Kernel.frame, hp, Kernel.frame]

theorem Kernel.frame_mod (k : Kernel ε) (va : ℕ) : k.frame va % pageSize = 0 := ptePage_mod _

end Pages

open Kernel (frame_congr pte_congr)

/-! ### What the user sees -/

section View

variable (backing : VmArea → ℕ → Byte) (swap : Pte → ℕ → Byte)

/-- The byte at `va` if the area of an empty page is `a`. -/
def userVia (k : Kernel ε) (a : VmArea) (va : ℕ) : Byte :=
  if k.Empty va then backing a va
  else if k.Present va then k.mem (k.frame va + va % pageSize)
  else swap (k.pte va) (va % pageSize)

def areaOf (k : Kernel ε) (va : ℕ) : VmArea :=
  (areaAt k.areas va).getD ⟨0, 0, 0, 0, none, 0, none, 0⟩

/-- The byte the user sees at `va`. -/
def user (k : Kernel ε) (va : ℕ) : Byte := userVia backing swap k (areaOf k va) va

/-- `k'` is `k` after a write fault at `addr`, resolved with area `a`: the page is present with the
right contents, in its old frame or in a frame of its own, and nothing else has changed. -/
structure Resolved (k : Kernel ε) (a : VmArea) (addr : ℕ) (k' : Kernel ε) : Prop where
  present : k'.Present addr
  contents : ∀ y, y / pageSize = addr / pageSize →
    k'.mem (k'.frame addr + y % pageSize) = userVia backing swap k a y
  others : ∀ y < taskSize, y / pageSize ≠ addr / pageSize → k'.pte y = k.pte y
  areas : k'.areas = k.areas
  storage : (k.Present addr ∧ k'.frame addr = k.frame addr ∧ k'.mem = k.mem) ∨
    ((∀ z < taskSize, z / pageSize ≠ addr / pageSize → k.Present z →
        k.frame z ≠ k'.frame addr) ∧
      ∀ x, base pageSize x ≠ k'.frame addr → k'.mem x = k.mem x)

def FaultOk (fault : FaultHandler ε) : Prop :=
  ∀ k a addr, addr < taskSize → Resolved backing swap k a addr (fault k a addr true)

end View

/-! ### Faults and `make_pages_present` -/

section Faults

variable {backing : VmArea → ℕ → Byte} {swap : Pte → ℕ → Byte} {k k' : Kernel ε} {a : VmArea}
  {addr : ℕ}

theorem userVia_of_empty (h : k.Empty addr) (b : VmArea) :
    userVia backing swap k b addr = backing b addr := if_pos h

theorem userVia_of_present (h : k.Present addr) (b : VmArea) :
    userVia backing swap k b addr = k.mem (k.frame addr + addr % pageSize) := by
  rw [userVia, if_neg h.not_empty, if_pos h]

theorem userVia_of_swapped (h : k.Swapped addr) (b : VmArea) :
    userVia backing swap k b addr = swap (k.pte addr) (addr % pageSize) := by
  rw [userVia, if_neg h.1, if_neg h.2]

theorem userVia_congr (h : k'.pte addr = k.pte addr)
    (hmem : k.Present addr →
      k'.mem (k.frame addr + addr % pageSize) = k.mem (k.frame addr + addr % pageSize)) (b : VmArea) :
    userVia backing swap k' b addr = userVia backing swap k b addr := by
  obtain he | hp | hs := k.residence addr
  · rw [userVia_of_empty he, userVia_of_empty (he.congr h)]
  · rw [userVia_of_present hp, userVia_of_present (hp.congr h), frame_congr h, hmem hp]
  · rw [userVia_of_swapped hs, userVia_of_swapped (hs.congr h), h]

namespace Resolved

variable (h : Resolved backing swap k a addr k')

include h

theorem mem {x : ℕ} (hx : base pageSize x ≠ k'.frame addr) : k'.mem x = k.mem x := by
  obtain ⟨-, -, hmem⟩ | ⟨-, hmem⟩ := h.storage
  · rw [hmem]
  · exact hmem x hx

theorem view (b : VmArea) {y : ℕ} (hy : y < taskSize) : userVia backing swap k' b y =
    if y / pageSize = addr / pageSize ∧ k.Empty y then backing a y else userVia backing swap k b y := by
  obtain hpage | hpage := eq_or_ne (y / pageSize) (addr / pageSize)
  · have hp : k'.Present y := h.present.congr (k'.pte_congr hpage)
    have hc := h.contents y hpage
    rw [← frame_congr (k'.pte_congr hpage)] at hc
    rw [userVia_of_present hp, hc]
    obtain he | hp | hs := k.residence y
    · rw [userVia_of_empty he, if_pos ⟨hpage, he⟩]
    · rw [if_neg (fun hc => hp.not_empty hc.2), userVia_of_present hp, userVia_of_present hp]
    · rw [if_neg (fun hc => hs.1 hc.2), userVia_of_swapped hs, userVia_of_swapped hs]
  · rw [if_neg (fun hc => hpage hc.1)]
    refine userVia_congr (h.others y hy hpage) (fun hp => ?_) b
    obtain ⟨-, -, hmem⟩ | ⟨hown, hmem⟩ := h.storage
    · rw [hmem]
    · refine hmem _ ?_
      rw [base_eq (k.frame_mod y) (mod_lt_pageSize y)]
      exact hown y hy hpage hp

theorem sole (haddr : addr < taskSize) {y : ℕ} (hy : y < taskSize) (hs : k.Sole y) : k'.Sole y := by
  intro hp z hz hzy hzp
  obtain hpage | hpage := eq_or_ne (y / pageSize) (addr / pageSize)
  · -- the page of the fault: its frame is its own, or the one it had
    rw [hpage] at hzy
    rw [frame_congr (k'.pte_congr hpage), frame_congr (h.others z hz hzy)]
    have hzk : k.Present z := hzp.congr (h.others z hz hzy).symm
    obtain ⟨hold, hframe, -⟩ | ⟨hown, -⟩ := h.storage
    · rw [hframe, ← frame_congr (k.pte_congr hpage)]
      exact hs (hold.congr (k.pte_congr hpage)) z hz (hpage ▸ hzy) hzk
    · exact hown z hz hzy hzk
  · have hyk : k.Present y := hp.congr (h.others y hy hpage).symm
    rw [frame_congr (h.others y hy hpage)]
    obtain hza | hza := eq_or_ne (z / pageSize) (addr / pageSize)
    · rw [frame_congr (k'.pte_congr hza)]
      obtain ⟨hold, hframe, -⟩ | ⟨hown, -⟩ := h.storage
      · rw [hframe]
        exact hs hyk addr haddr (hza ▸ hzy) hold
      · exact (hown y hy hpage hyk).symm
    · rw [frame_congr (h.others z hz hza)]
      exact hs hyk z hz hzy (hzp.congr (h.others z hz hza).symm)

end Resolved

/-- `make_pages_present (addr, stop)` comes to the page of `y`: it steps by pages from `addr` on. -/
def Touched (addr stop y : ℕ) : Prop :=
  addr / pageSize ≤ y / pageSize ∧ y / pageSize * pageSize + addr % pageSize < stop

instance (addr stop y : ℕ) : Decidable (Touched addr stop y) := inferInstanceAs (Decidable (_ ∧ _))

theorem touched_iff {addr stop y : ℕ} : Touched addr stop y ↔
    addr < stop ∧ (y / pageSize = addr / pageSize ∨ Touched (addr + pageSize) stop y) := by
  simp only [Touched, pageSize]
  omega

/-- `k'` is `k` after the loop of `make_pages_present` with area `a`. -/
structure Presented (backing : VmArea → ℕ → Byte) (swap : Pte → ℕ → Byte) (k : Kernel ε) (a : VmArea)
    (addr stop : ℕ) (k' : Kernel ε) : Prop where
  present : ∀ y, Touched addr stop y → k'.Present y
  others : ∀ y < taskSize, ¬ Touched addr stop y → k'.pte y = k.pte y
  areas : k'.areas = k.areas
  view : ∀ b, ∀ y < taskSize, userVia backing swap k' b y =
    if Touched addr stop y ∧ k.Empty y then backing a y else userVia backing swap k b y
  sole : ∀ y < taskSize, k.Sole y → k'.Sole y
  mem : ∀ x, (∀ y, Touched addr stop y → k'.frame y ≠ base pageSize x) → k'.mem x = k.mem x

theorem presentLoop_spec {fault : FaultHandler ε} (hf : FaultOk backing swap fault) (a : VmArea)
    {stop : ℕ} (hstop : stop ≤ taskSize) (n : ℕ) : ∀ (k : Kernel ε) (addr : ℕ), stop - addr ≤ n →
    Presented backing swap k a addr stop (presentLoop fault a true stop n k addr) := by
  have hdone : ∀ (k : Kernel ε) (addr : ℕ), ¬ addr < stop → Presented backing swap k a addr stop k := by
    intro k addr hlt
    have hno : ∀ y, ¬ Touched addr stop y := fun y hy => hlt (touched_iff.mp hy).1
    exact ⟨fun y hy => absurd hy (hno y), fun _ _ _ => rfl, rfl,
      fun b y _ => (if_neg fun hc => hno y hc.1).symm, fun _ _ h => h, fun _ _ => rfl⟩
  induction n with
  | zero => exact fun k addr hn => hdone k addr (by omega)
  | succ n ih =>
    intro k addr hn
    rw [presentLoop]
    split
    · next hlt =>
      have haddr : addr < taskSize := by omega
      have hr := hf k a addr haddr
      have hp := ih (fault k a addr true) (addr + pageSize) (by simp only [pageSize]; omega)
      -- the page of the fault is behind the rest of the loop
      have hpast : ∀ y, y / pageSize = addr / pageSize → ¬ Touched (addr + pageSize) stop y := by
        intro y hy ht
        simp only [Touched, pageSize] at *
        omega
      refine ⟨fun y hy => ?_, fun y hy hno => ?_, hp.areas.trans hr.areas, fun b y hy => ?_,
        fun y hy hs => hp.sole y hy (hr.sole haddr hy hs), fun x hx => ?_⟩
      · obtain hpage | ht := (touched_iff.mp hy).2
        · have := hp.others addr haddr (hpast addr rfl)
          exact hr.present.congr ((pte_congr _ hpage).trans this)
        · exact hp.present y ht
      · rw [touched_iff] at hno
        rw [hp.others y hy (fun ht => hno ⟨hlt, .inr ht⟩),
          hr.others y hy (fun hpage => hno ⟨hlt, .inl hpage⟩)]
      · rw [hp.view b y hy, hr.view b hy]
        obtain hpage | hpage := eq_or_ne (y / pageSize) (addr / pageSize)
        · have ht : Touched addr stop y := touched_iff.mpr ⟨hlt, .inl hpage⟩
          simp only [hpast y hpage, hpage, ht, false_and, if_false, true_and]
        have he : (fault k a addr true).Empty y ↔ k.Empty y := by
          rw [Kernel.Empty, hr.others y hy hpage, Kernel.Empty]
        have ht : Touched addr stop y ↔ Touched (addr + pageSize) stop y := by
          rw [touched_iff]
          exact ⟨fun h => h.2.resolve_left hpage, fun h => ⟨hlt, .inr h⟩⟩
        simp only [hpage, he, ht, false_and, if_false]
      · rw [hp.mem x (fun y hy => hx y (touched_iff.mpr ⟨hlt, .inr hy⟩))]
        refine hr.mem (fun hbase => hx addr (touched_iff.mpr ⟨hlt, .inl rfl⟩) ?_)
        rw [frame_congr (hp.others addr haddr (hpast addr rfl)), hbase]
    · next hlt => exact hdone k addr hlt

end Faults

/-! ### One turn of the loops -/

/-- A range below `TASK_SIZE` that lies in writable areas. -/
structure WritableRange (k : Kernel ε) (va len : ℕ) : Prop where
  fits : va + len ≤ taskSize
  writable : ∀ y, va ≤ y → y < va + len →
    ∃ a, areaAt k.areas y = some a ∧ a.vmStart ≤ y ∧ a.vmFlags &&& VM_WRITE ≠ 0
  whole : ∀ a ∈ k.areas, a.vmEnd % pageSize = 0

/-- The first address of the range whose page is empty: here `make_pages_present` is called. -/
def FirstGap (k : Kernel ε) (va len g : ℕ) : Prop :=
  va ≤ g ∧ g < va + len ∧ k.Empty g ∧ ∀ y, va ≤ y → y < g → ¬ k.Empty y

/-- The kernel when the routines take the entry for `va`. -/
def reach (fault : FaultHandler ε) (k : Kernel ε) (va stop : ℕ) : Kernel ε :=
  if k.Empty va then makePagesPresent fault k va stop else k

/-- Store `r` bytes to the page of `va`. -/
def Kernel.put (k : Kernel ε) (va : ℕ) (src : ℕ → Byte) (frm r : ℕ) : Kernel ε :=
  { k with mem := blit k.mem (k.frame va + va % pageSize) src frm r }

def chunk (va len : ℕ) : ℕ := min len (pageSize - va % pageSize)

theorem chunk_le (va len : ℕ) : chunk va len ≤ len := min_le_left _ _

theorem chunk_rest (va len : ℕ) : va + chunk va len + (len - chunk va len) = va + len := by
  rw [add_assoc, Nat.add_sub_cancel' (chunk_le va len)]

variable {len va y : ℕ}

theorem chunk_pos (va : ℕ) (h : 0 < len) : 0 < chunk va len :=
  lt_min h (Nat.sub_pos_of_lt (mod_lt_pageSize va))

theorem page_of_chunk (h1 : va ≤ y) (h2 : y < va + chunk va len) : y / pageSize = va / pageSize := by
  simp only [chunk, pageSize] at *
  omega

theorem page_of_rest (h1 : va + chunk va len ≤ y) (h2 : y < va + len) : va / pageSize < y / pageSize := by
  simp only [chunk, pageSize] at *
  omega

section Turn

variable {backing : VmArea → ℕ → Byte} {swap : Pte → ℕ → Byte} {fault : FaultHandler ε} {k : Kernel ε}

theorem areaOf_congr {k' : Kernel ε} (h : k'.areas = k.areas) (y : ℕ) : areaOf k' y = areaOf k y := by
  rw [areaOf, h, areaOf]

variable {frm g n z : ℕ} {src : ℕ → Byte}

theorem areaOf_page (hw : ∀ a ∈ k.areas, a.vmEnd % pageSize = 0)
    (h : y / pageSize = z / pageSize) : areaOf k y = areaOf k z := by
  have hfind : areaAt k.areas y = areaAt k.areas z := by
    refine List.find?_congr fun a ha => ?_
    have := hw a ha
    simp only [pageSize] at *
    exact decide_eq_decide.mpr (by omega)
  rw [areaOf, hfind, areaOf]

theorem touched_self (hlen : 0 < len) : Touched va (va + len) va := by
  simp only [Touched, pageSize]
  omega

theorem translate_eq {stop : ℕ} (h : ¬ (reach fault k va stop).Empty va) :
    translate fault k va stop = (reach fault k va stop, (reach fault k va stop).pte va) := by
  have hreach : (if (findPte k.pgd va).all pteNone = true then makePagesPresent fault k va stop
      else k) = reach fault k va stop := by
    rw [all_pteNone]
    rfl
  simp only [translate, hreach]
  congr 1
  rw [Kernel.pte, pteAt]
  rcases hp : findPte (reach fault k va stop).pgd va with _ | p
  · exact absurd (by rw [Kernel.Empty, Kernel.pte, pteAt, hp]; rfl) h
  · rfl

section

variable (hf : FaultOk backing swap fault) (hr : WritableRange k va len) (hlen : 0 < len)
include hf hr hlen

theorem makePagesPresent_spec : Presented backing swap k (areaOf k va) va (va + len)
      (makePagesPresent fault k va (va + len)) := by
  obtain ⟨a, ha, -, hwrite⟩ := hr.writable va le_rfl (by omega)
  rw [makePagesPresent, ha, areaOf, ha]
  simp only [Option.getD_some, hwrite, ne_eq, not_false_eq_true, decide_true]
  exact presentLoop_spec hf a hr.fits _ k va le_rfl

theorem reach_not_empty : ¬ (reach fault k va (va + len)).Empty va := by
  rw [reach]
  split
  · exact ((makePagesPresent_spec hf hr hlen).present va (touched_self hlen)).not_empty
  · next he => exact he

theorem reach_areas : (reach fault k va (va + len)).areas = k.areas := by
  rw [reach]
  split
  · exact (makePagesPresent_spec hf hr hlen).areas
  · rfl

theorem storeLoop_succ (src : ℕ → Byte) (n frm : ℕ) :
    storeLoop fault src (n + 1) k va frm len = storeLoop fault src n
      ((reach fault k va (va + len)).put va src frm (chunk va len)) (va + chunk va len)
      (frm + chunk va len) (len - chunk va len) := by
  rw [storeLoop, if_neg hlen.ne']
  simp only [translate_eq (reach_not_empty hf hr hlen)]
  rw [← chunk, or_offset (ptePage_mod _) (mod_lt_pageSize va)]
  rfl

theorem WritableRange.rest (src : ℕ → Byte) (frm : ℕ) :
    WritableRange ((reach fault k va (va + len)).put va src frm (chunk va len))
      (va + chunk va len) (len - chunk va len) := by
  have hle := chunk_le va len
  have ha : ((reach fault k va (va + len)).put va src frm (chunk va len)).areas = k.areas :=
    reach_areas hf hr hlen
  refine ⟨by have := hr.fits; omega, fun y h1 h2 => ?_, ha ▸ hr.whole⟩
  rw [ha]
  exact hr.writable y (by omega) (by omega)

theorem gap_of_rest (hg : FirstGap ((reach fault k va (va + len)).put va src frm (chunk va len))
      (va + chunk va len) (len - chunk va len) g) :
    k.Empty g ∧ va / pageSize < g / pageSize ∧ g < va + len ∧
      ((¬ k.Empty va ∧ FirstGap k va len g) ∨ (k.Empty va ∧ ¬ Touched va (va + len) g)) := by
  obtain ⟨h1, h2, he, hbefore⟩ := hg
  have hpage := page_of_rest h1 (by omega)
  have hfits := hr.fits
  rw [reach] at he hbefore
  split at he
  · next hva =>
    have hp := makePagesPresent_spec hf hr hlen
    have hno : ¬ Touched va (va + len) g := fun ht => (hp.present g ht).not_empty he
    exact ⟨he.congr (hp.others g (by omega) hno).symm, hpage, by omega, .inr ⟨hva, hno⟩⟩
  · next hva =>
    rw [if_neg hva] at hbefore
    refine ⟨he, hpage, by omega, .inl ⟨hva, by omega, by omega, he, fun y hy1 hy2 => ?_⟩⟩
    obtain hy | hy := lt_or_ge y (va + chunk va len)
    · exact fun hey => hva (hey.congr (k.pte_congr (page_of_chunk hy1 hy)).symm)
    · exact hbefore y hy hy2

end

theorem page_of_touched_rest (hvg : va ≤ g)
    (hno : ¬ Touched va (va + len) g) (hy : Touched g (va + len) y) : y / pageSize = g / pageSize := by
  simp only [Touched, pageSize] at *
  omega

section

variable (hf : FaultOk backing swap fault)
include hf

theorem storeLoop_pte (src : ℕ → Byte) (n : ℕ) :
    ∀ {k : Kernel ε} {va len frm z : ℕ}, len ≤ n → WritableRange k va len → z < taskSize →
    ¬ k.Empty z → (∀ g, FirstGap k va len g → ¬ Touched g (va + len) z) →
    (storeLoop fault src n k va frm len).pte z = k.pte z := by
  induction n with
  | zero => exact fun _ _ _ _ _ => rfl
  | succ n ih =>
    intro k va len frm z hn hr hz hez hz'
    obtain rfl | hlen := Nat.eq_zero_or_pos len
    · rfl
    have hle := chunk_le va len
    have hpos := chunk_pos va hlen
    have hreach : (reach fault k va (va + len)).pte z = k.pte z := by
      rw [reach]
      split
      · next hva =>
        exact (makePagesPresent_spec hf hr hlen).others z hz
          (hz' va ⟨le_rfl, by omega, hva, fun y h1 h2 => absurd h1 (by omega)⟩)
      · rfl
    rw [storeLoop_succ hf hr hlen]
    refine (ih (by omega) (hr.rest hf hlen src frm) hz (fun he => hez (he.congr hreach.symm))
      fun g hg ht => ?_).trans hreach
    rw [chunk_rest] at ht
    obtain ⟨heg, hpage, hglt, ⟨-, hgap⟩ | ⟨hva, hno⟩⟩ := gap_of_rest hf hr hlen hg
    · exact hz' g hgap ht
    · have := page_of_touched_rest (by simp only [pageSize] at hpage; omega) hno ht
      exact hez (heg.congr (k.pte_congr this))

theorem storeLoop_rest_pte (hr : WritableRange k va len)
    (hlen : 0 < len) (src : ℕ → Byte) (frm : ℕ) (hn : len ≤ n + 1)
    (hpage : y / pageSize = va / pageSize) :
    (storeLoop fault src (n + 1) k va frm len).pte y = (reach fault k va (va + len)).pte va := by
  have hfits := hr.fits
  have hpos := chunk_pos va hlen
  have hy : y < taskSize := by simp only [pageSize, taskSize] at *; omega
  have hreach := pte_congr (reach fault k va (va + len)) hpage
  rw [storeLoop_succ hf hr hlen]
  refine (storeLoop_pte hf src n (by omega) (hr.rest hf hlen src frm) hy
    (fun he => reach_not_empty hf hr hlen (he.congr hreach.symm)) fun g hg ht => ?_).trans hreach
  have := (gap_of_rest hf hr hlen hg).2.1
  have := ht.1
  omega

theorem storeLoop_touched_pte (hr : WritableRange k va len)
    (hlen : 0 < len) (src : ℕ → Byte) (frm : ℕ) (hn : len ≤ n + 1) (hva : k.Empty va)
    (ht : Touched va (va + len) z) :
    (storeLoop fault src (n + 1) k va frm len).pte z = (reach fault k va (va + len)).pte z := by
  have hfits := hr.fits
  have hpos := chunk_pos va hlen
  have hz : z < taskSize := by simp only [Touched, pageSize, taskSize] at *; omega
  have hp : (reach fault k va (va + len)).Present z := by
    rw [reach, if_pos hva]
    exact (makePagesPresent_spec hf hr hlen).present z ht
  rw [storeLoop_succ hf hr hlen]
  refine storeLoop_pte hf src n (by omega) (hr.rest hf hlen src frm) hz hp.not_empty fun g hg htg => ?_
  obtain ⟨-, hpage, -, ⟨hnot, -⟩ | ⟨-, hno⟩⟩ := gap_of_rest hf hr hlen hg
  · exact hnot hva
  · simp only [Touched, pageSize] at *
    omega

theorem storeLoop_not_empty (src : ℕ → Byte) (n : ℕ) :
    ∀ {k : Kernel ε} {va len y : ℕ} (frm : ℕ), len ≤ n → WritableRange k va len → va ≤ y → y < va + len →
    ¬ (storeLoop fault src n k va frm len).Empty y := by
  induction n with
  | zero => exact fun _ hn _ h1 h2 => absurd h2 (by omega)
  | succ n ih =>
    intro k va len y frm hn hr h1 h2
    have hlen : 0 < len := by omega
    have hpos := chunk_pos va hlen
    obtain hy | hy := lt_or_ge y (va + chunk va len)
    · intro he
      have := storeLoop_rest_pte hf hr hlen src frm hn (page_of_chunk h1 hy)
      exact reach_not_empty hf hr hlen (he.congr this.symm)
    · rw [storeLoop_succ hf hr hlen]
      exact ih _ (by omega) (hr.rest hf hlen src frm) hy (by have := chunk_le va len; omega)

end

theorem put_view (hp : k.Present va) (hs : k.Sole va) (b : VmArea) (hy : y < taskSize) :
    userVia backing swap (k.put va src frm (chunk va len)) b y =
      if va ≤ y ∧ y < va + chunk va len then src (frm + (y - va)) else userVia backing swap k b y := by
  have hmem : (k.put va src frm (chunk va len)).mem =
      blit k.mem (k.frame va + va % pageSize) src frm (chunk va len) := rfl
  obtain hpage | hpage := eq_or_ne (y / pageSize) (va / pageSize)
  · have hpy : k.Present y := hp.congr (k.pte_congr hpage)
    have hpy' : (k.put va src frm (chunk va len)).Present y := hpy
    rw [userVia_of_present hpy', userVia_of_present hpy, hmem,
      show (k.put va src frm (chunk va len)).frame y = k.frame va from
        frame_congr (k.pte_congr hpage), frame_congr (k.pte_congr hpage)]
    split
    · next hin =>
      rw [blit_inside (by simp only [pageSize] at *; omega) (by simp only [pageSize] at *; omega)]
      congr 2
      simp only [pageSize] at *
      omega
    · next hout => exact blit_outside (by simp only [pageSize] at *; omega)
  · rw [if_neg (fun hc => hpage (page_of_chunk hc.1 hc.2))]
    refine userVia_congr (show (k.put va src frm (chunk va len)).pte y = k.pte y from rfl) (fun hpy => ?_) b
    refine blit_off_page (k.frame_mod va) ?_ ?_
    · have := mod_lt_pageSize va
      rw [chunk]
      omega
    · rw [base_eq (k.frame_mod y) (mod_lt_pageSize y)]
      exact hs hp y hy hpage hpy

theorem put_mem {x : ℕ} (hx : base pageSize x ≠ k.frame va) :
    (k.put va src frm (chunk va len)).mem x = k.mem x := by
  refine blit_off_page (k.frame_mod va) ?_ hx
  have := mod_lt_pageSize va
  rw [chunk]
  omega

end Turn

/-! ### The whole copy -/

/-- Every page of the range is in storage when the loop comes to it, in a frame of its own. -/
structure Plain (k : Kernel ε) (va len : ℕ) : Prop where
  swapped : ∀ y, va ≤ y → y < va + len → k.Swapped y →
    ∃ g, FirstGap k va len g ∧ Touched g (va + len) y
  sole : ∀ y, va ≤ y → y < va + len → k.Sole y

/-- `make_pages_present` comes to the empty page of `y`, with the area of the first gap. -/
def Late (k : Kernel ε) (va len y g : ℕ) : Prop :=
  FirstGap k va len g ∧ Touched g (va + len) y ∧ k.Empty y

/-- `k'` is `k` with `src`, from `frm` on, stored to the range. -/
structure Stored (backing : VmArea → ℕ → Byte) (swap : Pte → ℕ → Byte) (src : ℕ → Byte)
    (k : Kernel ε) (va frm len : ℕ) (k' : Kernel ε) : Prop where
  areas : k'.areas = k.areas
  present : ∀ y, va ≤ y → y < va + len → k'.Present y
  inside : ∀ y, va ≤ y → y < va + len → user backing swap k' y = src (frm + (y - va))
  late : ∀ y < taskSize, ¬ (va ≤ y ∧ y < va + len) → ∀ g, Late k va len y g →
    user backing swap k' y = backing (areaOf k g) y
  outside : ∀ y < taskSize, ¬ (va ≤ y ∧ y < va + len) → (∀ g, ¬ Late k va len y g) →
    user backing swap k' y = user backing swap k y
  mem : ∀ x, (∀ y, va ≤ y → y < va + len → k'.frame y ≠ base pageSize x) → k'.mem x = k.mem x

section Whole

variable {backing : VmArea → ℕ → Byte} {swap : Pte → ℕ → Byte} {fault : FaultHandler ε} {k : Kernel ε}

variable {frm g : ℕ} {src : ℕ → Byte}

theorem FirstGap.eq_of_empty (hg : FirstGap k va len g) (hva : k.Empty va) : g = va := by
  obtain h | h := eq_or_lt_of_le hg.1
  · exact h.symm
  · exact absurd hva (hg.2.2.2 va le_rfl h)

theorem FirstGap.rest (hg : FirstGap k va len g) (hva : ¬ k.Empty va) :
    FirstGap k (va + chunk va len) (len - chunk va len) g := by
  refine ⟨?_, by have := hg.2.1; omega, hg.2.2.1, fun y h1 h2 => hg.2.2.2 y (by omega) h2⟩
  by_contra hlt
  exact hva (hg.2.2.1.congr (k.pte_congr (page_of_chunk hg.1 (not_le.mp hlt))).symm)

theorem put_user (hp : k.Present va) (hs : k.Sole va)
    (hy : y < taskSize) : user backing swap (k.put va src frm (chunk va len)) y =
      if va ≤ y ∧ y < va + chunk va len then src (frm + (y - va)) else user backing swap k y :=
  put_view hp hs _ hy

section

variable (hf : FaultOk backing swap fault) (hr : WritableRange k va len) (hlen : 0 < len)
include hf hr hlen

/-- When the loop comes to a page, it is in storage, in a frame of its own. -/
theorem Plain.reach (h : Plain k va len) :
    (reach fault k va (va + len)).Present va ∧ (UserCopy.reach fault k va (va + len)).Sole va := by
  have hfits := hr.fits
  rw [UserCopy.reach]
  split
  · have hp := makePagesPresent_spec hf hr hlen
    exact ⟨hp.present va (touched_self hlen), hp.sole va (by omega) (h.sole va le_rfl (by omega))⟩
  · next hva =>
    refine ⟨?_, h.sole va le_rfl (by omega)⟩
    obtain he | hp | hs := k.residence va
    · exact absurd he hva
    · exact hp
    · obtain ⟨g, hg, ht⟩ := h.swapped va le_rfl (by omega) hs
      have hpage : g / pageSize = va / pageSize := le_antisymm ht.1 (Nat.div_le_div_right hg.1)
      exact absurd (hg.2.2.1.congr (k.pte_congr hpage).symm) hva

theorem Plain.rest (h : Plain k va len) (src : ℕ → Byte) (frm : ℕ) :
    Plain ((UserCopy.reach fault k va (va + len)).put va src frm (chunk va len))
      (va + chunk va len) (len - chunk va len) := by
  have hfits := hr.fits
  have hle := chunk_le va len
  constructor
  · intro y h1 h2 hs
    rw [chunk_rest] at h2 ⊢
    rw [UserCopy.reach] at hs
    split at hs
    · next hva =>
      -- the pages that were brought in are not swapped out, and the others wait for nothing
      have hp := makePagesPresent_spec hf hr hlen
      have hno : ¬ Touched va (va + len) y := fun ht => hs.2 (hp.present y ht)
      obtain ⟨g, hg, ht⟩ := h.swapped y (by omega) h2 (hs.congr (hp.others y (by omega) hno).symm)
      rw [hg.eq_of_empty hva] at ht
      exact absurd ht hno
    · next hva =>
      obtain ⟨g, hg, ht⟩ := h.swapped y (by omega) h2 hs
      refine ⟨g, ?_, ht⟩
      have := hg.rest hva
      rw [UserCopy.reach, if_neg hva]
      exact this
  · intro y h1 h2
    rw [chunk_rest] at h2
    have hs := h.sole y (by omega) h2
    rw [UserCopy.reach]
    split
    · exact (makePagesPresent_spec hf hr hlen).sole y (by omega) hs
    · exact hs

theorem reach_user (hy : y < taskSize) : user backing swap (reach fault k va (va + len)) y =
      if k.Empty va ∧ Touched va (va + len) y ∧ k.Empty y then backing (areaOf k va) y
      else user backing swap k y := by
  rw [user, areaOf_congr (reach_areas hf hr hlen), user, reach]
  split
  · next hva =>
    rw [(makePagesPresent_spec hf hr hlen).view _ y hy]
    simp only [hva, true_and]
  · next hva => simp only [hva, false_and, if_false]

theorem late_of_rest (hl : Late ((reach fault k va (va + len)).put va src frm (chunk va len))
      (va + chunk va len) (len - chunk va len) y g) :
    Late k va len y g ∨ (y / pageSize = g / pageSize ∧ k.Empty y) := by
  have hle := chunk_le va len
  obtain ⟨hg, ht, he⟩ := hl
  rw [chunk_rest] at ht
  obtain ⟨heg, hpage, hglt, ⟨hva, hgap⟩ | ⟨hva, hno⟩⟩ := gap_of_rest hf hr hlen hg
  · refine .inl ⟨hgap, ht, ?_⟩
    rwa [reach, if_neg hva] at he
  · have hsame := page_of_touched_rest (by simp only [pageSize] at hpage; omega) hno ht
    exact .inr ⟨hsame, heg.congr (k.pte_congr hsame)⟩

theorem Stored.turn (h : Plain k va len) {k' : Kernel ε}
    (hrest : Stored backing swap src ((reach fault k va (va + len)).put va src frm (chunk va len))
      (va + chunk va len) (frm + chunk va len) (len - chunk va len) k')
    (hfirst : ∀ y, y / pageSize = va / pageSize → k'.pte y = (reach fault k va (va + len)).pte va)
    (htouched : k.Empty va → ∀ z, Touched va (va + len) z →
      k'.pte z = (reach fault k va (va + len)).pte z) : Stored backing swap src k va frm len k' := by
  have hfits := hr.fits
  have hle := chunk_le va len
  obtain ⟨hp1, hs1⟩ := h.reach hf hr hlen
  have hareas := reach_areas hf hr hlen
  -- the kernel behind the first page, and what the user sees there
  generalize hk2 : (reach fault k va (va + len)).put va src frm (chunk va len) = k2 at hrest
  have hpte2 : ∀ y, k2.pte y = (reach fault k va (va + len)).pte y := fun y => by rw [← hk2]; rfl
  have hareas2 : k2.areas = k.areas := by rw [← hk2]; exact hareas
  have hview : ∀ y < taskSize, user backing swap k2 y =
      if va ≤ y ∧ y < va + chunk va len then src (frm + (y - va))
      else user backing swap (reach fault k va (va + len)) y := fun y hy => by
    rw [← hk2]
    exact put_user hp1 hs1 hy
  have hkeep : ∀ y < taskSize, ¬ (va + chunk va len ≤ y ∧ y < va + len) → ¬ k2.Empty y →
      user backing swap k' y = user backing swap k2 y := fun y hy hout he =>
    hrest.outside y hy (by omega) fun g hg => he hg.2.2
  refine ⟨hrest.areas.trans hareas2, fun y h1 h2 => ?_, fun y h1 h2 => ?_, fun y hy hout g hg => ?_,
    fun y hy hout hno => ?_, fun x hx => ?_⟩
  · obtain hlt | hge := lt_or_ge y (va + chunk va len)
    · exact hp1.congr (hfirst y (page_of_chunk h1 hlt))
    · exact hrest.present y hge (by omega)
  · obtain hlt | hge := lt_or_ge y (va + chunk va len)
    · have hpage := page_of_chunk h1 hlt
      have hp2 : k2.Present y := hp1.congr ((hpte2 y).trans (pte_congr _ hpage))
      rw [hkeep y (by omega) (by omega) hp2.not_empty, hview y (by omega), if_pos ⟨h1, hlt⟩]
    · rw [hrest.inside y hge (by omega)]
      congr 1
      omega
  · obtain hva | hva := Classical.em (k.Empty va)
    · obtain ⟨hgap, ht, he⟩ := hg
      rw [hgap.eq_of_empty hva] at ht ⊢
      have hp2 : k2.Present y := by
        refine Kernel.Present.congr (k := reach fault k va (va + len)) (y := y) ?_ (hpte2 y)
        rw [reach, if_pos hva]
        exact (makePagesPresent_spec hf hr hlen).present y ht
      rw [hkeep y hy (by omega) hp2.not_empty, hview y hy, if_neg (by omega), reach_user hf hr hlen hy,
        if_pos ⟨hva, ht, he⟩]
    · have hgap2 : FirstGap k2 (va + chunk va len) (len - chunk va len) g := by
        rw [← hk2, reach, if_neg hva]
        exact hg.1.rest hva
      have he2 : k2.Empty y := hg.2.2.congr ((hpte2 y).trans (by rw [reach, if_neg hva]))
      rw [hrest.late y hy (by omega) g ⟨hgap2, by rw [chunk_rest]; exact hg.2.1, he2⟩, areaOf_congr hareas2]
  · rcases Classical.em (∃ g, Late k2 (va + chunk va len) (len - chunk va len) y g) with ⟨g, hg⟩ | hno2
    · obtain hlate | ⟨hpage, he⟩ := late_of_rest hf hr hlen (hk2 ▸ hg)
      · exact absurd hlate (hno g)
      · rw [hrest.late y hy (by omega) g hg, areaOf_congr hareas2, ← areaOf_page hr.whole hpage, user,
          userVia_of_empty he]
    · rw [hrest.outside y hy (by omega) fun g hg => hno2 ⟨g, hg⟩, hview y hy, if_neg (by omega),
        reach_user hf hr hlen hy, if_neg]
      rintro ⟨hva, ht, he⟩
      exact hno va ⟨⟨le_rfl, by omega, hva, fun z h1 h2 => absurd h1 (by omega)⟩, ht, he⟩
  · have hmem2 : k2.mem x = (reach fault k va (va + len)).mem x := by
      rw [← hk2]
      refine put_mem fun hbase => hx va le_rfl (by omega) ?_
      rw [frame_congr (hfirst va rfl), hbase]
    rw [hrest.mem x (fun y h1 h2 => hx y (by omega) (by omega)), hmem2, reach]
    split
    · next hva =>
      refine (makePagesPresent_spec hf hr hlen).mem x fun y ht => ?_
      -- a page that was brought in has an address in the range
      have hin : va ≤ y / pageSize * pageSize + va % pageSize := by
        have := ht.1
        simp only [pageSize] at *
        omega
      have hsame : (y / pageSize * pageSize + va % pageSize) / pageSize = y / pageSize := by
        simp only [pageSize]
        omega
      have hne := hx _ hin ht.2
      rw [frame_congr (k'.pte_congr hsame), frame_congr (htouched hva y ht), reach,
        if_pos hva] at hne
      exact hne
    · rfl

end

theorem storeLoop_stored (hf : FaultOk backing swap fault) (src : ℕ → Byte) (n : ℕ) :
    ∀ {k : Kernel ε} {va len : ℕ} (frm : ℕ), len ≤ n → WritableRange k va len → Plain k va len →
    Stored backing swap src k va frm len (storeLoop fault src n k va frm len) := by
  have hnil : ∀ (k : Kernel ε) (va frm : ℕ), Stored backing swap src k va frm 0 k := fun k va frm =>
    ⟨rfl, fun y h1 h2 => absurd h2 (by omega), fun y h1 h2 => absurd h2 (by omega),
      fun y _ _ g hg => absurd hg.1.2.1 (by have := hg.1.1; omega), fun _ _ _ _ => rfl, fun _ _ => rfl⟩
  induction n with
  | zero =>
    intro k va len frm hn
    obtain rfl : len = 0 := by omega
    exact fun _ _ => hnil k va frm
  | succ n ih =>
    intro k va len frm hn hr h
    obtain rfl | hlen := Nat.eq_zero_or_pos len
    · exact hnil k va frm
    have hpos := chunk_pos va hlen
    refine Stored.turn hf hr hlen h ?_ (fun y => storeLoop_rest_pte hf hr hlen src frm hn)
      fun hva z => storeLoop_touched_pte hf hr hlen src frm hn hva
    rw [storeLoop_succ hf hr hlen]
    exact ih _ (by omega) (hr.rest hf hlen src frm) (h.rest hf hr hlen src frm)

end Whole

end I370Linux.UserCopy
