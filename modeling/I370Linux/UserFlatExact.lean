import I370Linux.UserFlat

/-! # When the copies implement flat user memory

The exact condition under which `__copy_to_user` followed by `__copy_from_user` reads back what was
written, changes no other byte of the user and writes to no other frame, whatever handler brings the
right contents in. -/

namespace I370Linux.UserCopy

open PagedStore Vma PageTable

variable {ε : Type*}

/-! ### Reading back -/

section Load

variable {fault : FaultHandler ε} {k : Kernel ε}

theorem reach_of_not_empty {va stop : ℕ} (h : ¬ k.Empty va) : reach fault k va stop = k := if_neg h

/-- The rule for the loop of `__copy_from_user` on `[lo, hi)`: what the faults keep holds of the kernel at the
end, and the buffer has the bytes that are read in the page of each address. -/
theorem loadLoop_rule (fault : FaultHandler ε) (I : Kernel ε → Prop) (read : ℕ → Byte) (lo hi : ℕ)
    (hturn : ∀ k va stop, I k → lo ≤ va → va < stop → stop ≤ hi → I (reach fault k va stop) ∧
      ¬ (reach fault k va stop).Empty va ∧ ∀ y, va ≤ y → y < stop → y / pageSize = va / pageSize →
        (reach fault k va stop).mem ((reach fault k va stop).frame va + y % pageSize) = read y) (n : ℕ) :
    ∀ (k : Kernel ε) (dst : ℕ → Byte) (too va len : ℕ), len ≤ n → lo ≤ va → va + len ≤ hi → I k →
    I (loadLoop fault n k dst too va len).1 ∧
    (∀ j < len, (loadLoop fault n k dst too va len).2 (too + j) = read (va + j)) ∧
    ∀ x, x < too ∨ too + len ≤ x → (loadLoop fault n k dst too va len).2 x = dst x := by
  induction n with
  | zero => exact fun _ _ _ _ _ hn _ _ h => ⟨h, fun j hj => absurd hj (by omega), fun _ _ => rfl⟩
  | succ n ih =>
    intro k dst too va len hn hva hend h
    obtain rfl | hlen := Nat.eq_zero_or_pos len
    · exact ⟨h, fun j hj => absurd hj (by omega), fun _ _ => rfl⟩
    have hle := chunk_le va len
    have hpos := chunk_pos va hlen
    obtain ⟨h₁, hne, hread⟩ := hturn k va (va + len) h hva (by omega) hend
    rw [loadLoop, if_neg hlen.ne']
    simp only [translate_eq hne]
    rw [← chunk, or_offset (ptePage_mod _) (mod_lt_pageSize va)]
    generalize reach fault k va (va + len) = k₁ at h₁ hread
    obtain ⟨hI, hin, hout⟩ := ih k₁ (blit dst too k₁.mem (k₁.frame va + va % pageSize) (chunk va len))
      (too + chunk va len) (va + chunk va len) (len - chunk va len) (by omega) (by omega) (by omega) h₁
    refine ⟨hI, fun j hj => ?_, fun x hx => ?_⟩
    · obtain hlt | hge := lt_or_ge j (chunk va len)
      · have hpage := page_of_chunk (Nat.le_add_right va j) (show va + j < va + chunk va len by omega)
        refine (hout (too + j) (by omega)).trans ?_
        rw [blit_inside (by omega) (by omega), ← hread (va + j) (by omega) (by omega) hpage]
        congr 1
        simp only [pageSize] at *
        omega
      · obtain ⟨i, rfl⟩ := Nat.exists_eq_add_of_le hge
        have := hin i (by omega)
        rwa [add_assoc, add_assoc] at this
    · exact (hout x (by omega)).trans (blit_outside (by omega))

/-- If no page of the range is empty, `__copy_from_user` changes nothing and reads every byte where
the entry of its page says. -/
theorem loadLoop_spec (fault : FaultHandler ε) (dst : ℕ → Byte) {va len : ℕ}
    (hne : ∀ y, va ≤ y → y < va + len → ¬ k.Empty y) :
    (loadLoop fault len k dst 0 va len).1 = k ∧
    (∀ j < len, (loadLoop fault len k dst 0 va len).2 j = k.mem (k.frame (va + j) + (va + j) % pageSize)) ∧
    ∀ x, len ≤ x → (loadLoop fault len k dst 0 va len).2 x = dst x := by
  obtain ⟨hk, hin, hout⟩ := loadLoop_rule fault (· = k) (fun y => k.mem (k.frame y + y % pageSize)) va (va + len)
    (fun k' y stop hk hy hlt hstop => by
      subst hk
      rw [reach_of_not_empty (hne y hy (by omega))]
      exact ⟨rfl, hne y hy (by omega), fun z _ _ hz => by rw [Kernel.frame_congr (k'.pte_congr hz)]⟩)
    len k dst 0 va len le_rfl le_rfl le_rfl rfl
  simp only [zero_add] at hin
  exact ⟨hk, hin, fun x hx => hout x (by omega)⟩

end Load

/-- **Flat user memory**: what `__copy_to_user` stores to the range, `__copy_from_user` reads; no
other byte of the user has changed, and real storage only in the frames of the range. -/
def FlatCopy (backing : VmArea → ℕ → Byte) (swap : Pte → ℕ → Byte) (fault : FaultHandler ε)
    (k : Kernel ε) (va len : ℕ) (src dst : ℕ → Byte) : Prop :=
  ∃ k1 k2 dst', copyToUser fault false k va src len = some k1 ∧
    copyFromUser fault false k1 dst va len = some (k2, dst') ∧
    (∀ j < len, dst' j = src j) ∧
    (∀ y < taskSize, ¬ (va ≤ y ∧ y < va + len) → user backing swap k2 y = user backing swap k y) ∧
    ∀ x, (∀ y, va ≤ y → y < va + len → k2.Present y → k2.frame y ≠ base pageSize x) →
      k2.mem x = k.mem x

section Flat

variable {backing : VmArea → ℕ → Byte} {swap : Pte → ℕ → Byte} {fault : FaultHandler ε}
  {k : Kernel ε} {va len : ℕ}

/-- The same, said of the state `k'` after the first copy. -/
structure FlatAfter (backing : VmArea → ℕ → Byte) (swap : Pte → ℕ → Byte) (k : Kernel ε)
    (va len : ℕ) (src : ℕ → Byte) (k' : Kernel ε) : Prop where
  back : ∀ j < len, k'.mem (k'.frame (va + j) + (va + j) % pageSize) = src j
  others : ∀ y < taskSize, ¬ (va ≤ y ∧ y < va + len) → user backing swap k' y = user backing swap k y
  mem : ∀ x, (∀ y, va ≤ y → y < va + len → k'.Present y → k'.frame y ≠ base pageSize x) →
    k'.mem x = k.mem x

theorem flatCopy_iff_after (hf : FaultOk backing swap fault) (hr : WritableRange k va len)
    (hva : pageSize ≤ va) (src dst : ℕ → Byte) : FlatCopy backing swap fault k va len src dst ↔
      FlatAfter backing swap k va len src (storeLoop fault src len k va 0 len) := by
  have hne : ∀ y, va ≤ y → y < va + len → ¬ (storeLoop fault src len k va 0 len).Empty y :=
    fun y h1 h2 => storeLoop_not_empty hf src len 0 le_rfl hr h1 h2
  obtain ⟨hk, hin, -⟩ := loadLoop_spec fault dst hne
  have hto : copyToUser fault false k va src len = some (storeLoop fault src len k va 0 len) := by
    rw [copyToUser, if_neg Bool.false_ne_true, if_neg (by omega)]
  have hfrom : copyFromUser fault false (storeLoop fault src len k va 0 len) dst va len =
      some (loadLoop fault len (storeLoop fault src len k va 0 len) dst 0 va len) := by
    rw [copyFromUser, if_neg Bool.false_ne_true, if_neg (by omega)]
  constructor
  · rintro ⟨k1, k2, dst', h1, h2, hback, hothers, hmem⟩
    rw [hto, Option.some.injEq] at h1
    rw [← h1, hfrom, Option.some.injEq] at h2
    rw [h2] at hk hin
    simp only at hk hin
    rw [hk] at hothers hmem
    exact ⟨fun j hj => (hin j hj).symm.trans (hback j hj), hothers, hmem⟩
  · rintro ⟨hback, hothers, hmem⟩
    refine ⟨_, _, _, hto, hfrom.trans rfl, fun j hj => (hin j hj).trans (hback j hj), ?_, ?_⟩
    · rw [hk]
      exact hothers
    · rw [hk]
      exact hmem

/-- What `make_pages_present` brings in with the area of the first gap is what the areas hold. -/
def AreasAgree (backing : VmArea → ℕ → Byte) (k : Kernel ε) (va len : ℕ) : Prop :=
  ∀ y < taskSize, ¬ (va ≤ y ∧ y < va + len) → ∀ g, Late k va len y g →
    backing (areaOf k g) y = backing (areaOf k y) y

theorem flatAfter_of_plain (hf : FaultOk backing swap fault) (hr : WritableRange k va len)
    (h : Plain k va len) (ha : AreasAgree backing k va len) (src : ℕ → Byte) :
    FlatAfter backing swap k va len src (storeLoop fault src len k va 0 len) := by
  have hs := storeLoop_stored hf src len 0 le_rfl hr h
  refine ⟨fun j hj => ?_, fun y hy hout => ?_, fun x hx => ?_⟩
  · have hp := hs.present (va + j) (by omega) (by omega)
    have hin := hs.inside (va + j) (by omega) (by omega)
    rw [user, userVia_of_present hp] at hin
    rw [hin]
    congr 1
    omega
  · rcases Classical.em (∃ g, Late k va len y g) with ⟨g, hg⟩ | hno
    · rw [hs.late y hy hout g hg, ha y hy hout g hg, user, userVia_of_empty hg.2.2]
    · exact hs.outside y hy hout fun g hg => hno ⟨g, hg⟩
  · exact hs.mem x fun y h1 h2 => hx y h1 h2 (hs.present y h1 h2)

end Flat

/-! ### A handler

There are as many frames as pages, so a page that is not present always finds a frame of its own. -/

section Ideal

variable (backing : VmArea → ℕ → Byte) (swap : Pte → ℕ → Byte)

theorem exists_freeFrame (k : Kernel ε) (addr : ℕ) (haddr : addr < taskSize) :
    ∃ f, f % pageSize = 0 ∧ f < taskSize ∧ ∀ z < taskSize, z / pageSize ≠ addr / pageSize →
      k.Present z → k.frame z ≠ f := by
  have hpages : taskSize = 524288 * pageSize := rfl
  have hcard : (((Finset.range 524288).erase (addr / pageSize)).image
      fun q => k.frame (q * pageSize) / pageSize).card < (Finset.range 524288).card := by
    refine lt_of_le_of_lt Finset.card_image_le (Finset.card_erase_lt_of_mem ?_)
    rw [Finset.mem_range]
    exact Nat.div_lt_of_lt_mul (by rw [mul_comm, ← hpages]; exact haddr)
  obtain ⟨q, hq, hnot⟩ := Finset.exists_mem_notMem_of_card_lt_card hcard
  rw [Finset.mem_range] at hq
  refine ⟨q * pageSize, Nat.mul_mod_left _ _, by simp only [pageSize, taskSize]; omega,
    fun z hz hne _ hframe => hnot (Finset.mem_image.mpr ⟨z / pageSize, ?_, ?_⟩)⟩
  · rw [Finset.mem_erase, Finset.mem_range]
    exact ⟨hne, Nat.div_lt_of_lt_mul (by rw [mul_comm, ← hpages]; exact hz)⟩
  · have hpage : z / pageSize * pageSize / pageSize = z / pageSize := Nat.mul_div_cancel _ (by decide)
    rw [Kernel.frame_congr (k.pte_congr hpage), hframe, Nat.mul_div_cancel _ (by decide)]

/-- A frame in which no other page is. -/
noncomputable def freeFrame (k : Kernel ε) (addr : ℕ) : ℕ :=
  if h : addr < taskSize then Classical.choose (exists_freeFrame k addr h) else 0

/-- A handler that leaves present pages alone and brings the others into frames of their own. -/
noncomputable def idealFault : FaultHandler ε := fun k a addr _ =>
  if k.Present addr then k
  else { k with
    pgd := putPte k.pgd addr (mkPte (freeFrame k addr) PAGE_USER)
    mem := fun x => if base pageSize x = freeFrame k addr then
      userVia backing swap k a (base pageSize addr + x % pageSize) else k.mem x }

theorem idealFault_ok : FaultOk backing swap (idealFault backing swap : FaultHandler ε) := by
  intro k a addr haddr
  rw [idealFault]
  split
  · next hp =>
    refine ⟨hp, fun y hy => ?_, fun _ _ _ => rfl, rfl, .inl ⟨hp, rfl, rfl⟩⟩
    rw [userVia_of_present (hp.congr (k.pte_congr hy)), Kernel.frame_congr (k.pte_congr hy)]
  · next hp =>
    obtain ⟨hmod, hlt, hown⟩ := Classical.choose_spec (exists_freeFrame k addr haddr)
    have hfree : freeFrame k addr = Classical.choose (exists_freeFrame k addr haddr) := dif_pos haddr
    rw [← hfree] at hmod hlt hown
    generalize freeFrame k addr = f at hmod hlt hown ⊢
    generalize hk' : ({ k with
      pgd := putPte k.pgd addr (mkPte f PAGE_USER)
      mem := fun x => if base pageSize x = f then
        userVia backing swap k a (base pageSize addr + x % pageSize) else k.mem x } : Kernel ε) = k'
    have hpte : k'.pte addr = mkPte f PAGE_USER := by rw [← hk']; exact pteAt_putPte_self _ _ _
    have hframe : k'.frame addr = f := by
      rw [Kernel.frame, hpte]
      exact ptePage_mkPte hmod hlt (by decide)
    refine ⟨?_, fun y hy => ?_, fun y hy hne => ?_, by rw [← hk'], .inr ⟨?_, fun x hx => ?_⟩⟩
    · rw [Kernel.Present, hpte]
      exact ptePresent_mkPte f
    · rw [hframe, ← hk']
      show (if base pageSize (f + y % pageSize) = f then _ else _) = _
      rw [if_pos (base_eq hmod (mod_lt_pageSize y)), mod_eq hmod (mod_lt_pageSize y), base, ← hy]
      exact congrArg _ (base_add_mod pageSize y)
    · rw [← hk']
      exact pteAt_putPte_of_ne k.pgd _ haddr hy hne
    · rw [hframe]
      exact hown
    · rw [hframe] at hx
      rw [← hk']
      exact if_neg hx

theorem storeLoop_idealFault_pte {k : Kernel ε} {va len z : ℕ} (hr : WritableRange k va len)
    (hz : k.Present z) (src : ℕ → Byte) :
    (storeLoop (idealFault backing swap) src len k va 0 len).pte z = k.pte z := by
  have hkeep : RangeKeeps (idealFault backing swap) k.areas
      (fun k' : Kernel ε => k'.areas = k.areas ∧ k'.pte z = k.pte z) va (va + len) := by
    refine ⟨fun _ h => h.1, fun y h1 h2 => ?_, fun k' addr y vma h _ _ _ _ => ?_,
      fun _ _ _ _ _ _ _ _ h _ _ _ _ _ => h⟩
    · obtain ⟨a, ha, -⟩ := hr.writable y h1 h2
      exact ⟨a, ha⟩
    · rw [idealFault]
      split
      · next hp =>
        refine ⟨h, ?_, fun _ h => h⟩
        rcases hf : findPte k'.pgd addr with _ | p
        · rw [Kernel.Present, Kernel.pte, pteAt, hf] at hp
          cases hp
        · rfl
      · next hp =>
        refine ⟨⟨h.1, Eq.trans ?_ h.2⟩, ?_, fun z hs => findPte_putPte_isSome _ _ _ hs⟩
        · refine pteAt_putPte_of_place _ _ fun hplace => hp ?_
          exact hz.congr ((pteAt_of_place k'.pgd hplace).symm.trans h.2)
        · rw [findPte_putPte_self]
          rfl
  exact (storeLoop_keeps hkeep src len k va 0 len le_rfl le_rfl ⟨rfl, rfl⟩).2

end Ideal

/-! ### The condition is necessary -/

section Necessary

variable {backing : VmArea → ℕ → Byte} {swap : Pte → ℕ → Byte} {k k' : Kernel ε} {va len y z : ℕ}

/-- `v` at the byte for `y`, and `w` everywhere else. -/
def mark (va y : ℕ) (v w : Byte) : ℕ → Byte := fun j => if j = y - va then v else w

/-- A second page in the frame of `y` shows the byte that was written for `y`, although it is no part
of the range or has its own byte. -/
theorem FlatAfter.second_page {v w : Byte} (h : FlatAfter backing swap k va len (mark va y v w) k')
    (h1 : va ≤ y) (h2 : y < va + len) (hz : z < taskSize)
    (hzp : k'.Present z) (hpage : z / pageSize ≠ y / pageSize) (hframe : k'.frame z = k'.frame y) :
    v = w ∨ ∃ z' < taskSize, z' / pageSize = z / pageSize ∧ z' % pageSize = y % pageSize ∧
      ¬ (va ≤ z' ∧ z' < va + len) ∧ user backing swap k z' = v := by
  have hy : k'.mem (k'.frame y + y % pageSize) = v := by
    have := h.back (y - va) (by omega)
    rw [Nat.add_sub_cancel' h1] at this
    rw [this, mark, if_pos rfl]
  obtain ⟨z', hz', hz1, hz2⟩ : ∃ z' < taskSize, z' / pageSize = z / pageSize ∧
      z' % pageSize = y % pageSize := by
    refine ⟨z / pageSize * pageSize + y % pageSize, ?_, ?_, ?_⟩ <;>
    · simp only [pageSize, taskSize] at *
      omega
  have hread : k'.mem (k'.frame z' + z' % pageSize) = v := by
    rw [Kernel.frame_congr (k'.pte_congr hz1), hframe, hz2, hy]
  obtain hin | hout := Classical.em (va ≤ z' ∧ z' < va + len)
  · left
    have := h.back (z' - va) (by omega)
    rw [Nat.add_sub_cancel' hin.1, hread, mark, if_neg] at this
    · exact this
    · intro he
      have : z' = y := by omega
      exact hpage (by rw [← hz1, this])
  · refine .inr ⟨z', hz', hz1, hz2, hout, ?_⟩
    rw [← h.others z' hz' hout, user, userVia_of_present (hzp.congr (k'.pte_congr hz1)), hread]

theorem exists_byte (a b c : Byte) : ∃ v : Byte, v ≠ a ∧ v ≠ b ∧ v ≠ c := by
  have hcard : ({a, b, c} : Finset Byte).card < ({0, 1, 2, 3} : Finset Byte).card :=
    lt_of_le_of_lt Finset.card_le_three (by decide)
  obtain ⟨v, -, hv⟩ := Finset.exists_mem_notMem_of_card_lt_card hcard
  simp only [Finset.mem_insert, Finset.mem_singleton, not_or] at hv
  exact ⟨v, hv⟩

theorem exists_ne_byte (v : Byte) : ∃ w : Byte, v ≠ w := by
  obtain ⟨w, hw, -⟩ := exists_byte v v v
  exact ⟨w, hw.symm⟩

theorem sole_of_flat (hr : WritableRange k va len) (h : ∀ src, FlatAfter backing swap k va len src
      (storeLoop (idealFault backing swap) src len k va 0 len)) (h1 : va ≤ y) (h2 : y < va + len) :
    k.Sole y := by
  intro hyp z hz hpage hzp hframe
  obtain ⟨v, hv, -⟩ := exists_byte (user backing swap k (z / pageSize * pageSize + y % pageSize)) 0 0
  obtain ⟨w, hw⟩ := exists_ne_byte v
  have hpz := storeLoop_idealFault_pte backing swap hr hzp (mark va y v w)
  have hpy := storeLoop_idealFault_pte backing swap hr hyp (mark va y v w)
  rcases (h (mark va y v w)).second_page h1 h2 hz (hzp.congr hpz) hpage
    ((Kernel.frame_congr hpz).trans (hframe.trans (Kernel.frame_congr hpy).symm)) with
    hvw | ⟨z', -, hz1, hz2, -, huser⟩
  · exact hw hvw
  · refine hv (huser.symm.trans (congrArg _ ?_))
    rw [← hz1, ← hz2]
    exact (base_add_mod pageSize z').symm

theorem first_or_last_page {z' : ℕ} (h1 : va ≤ z) (h2 : z < va + len)
    (hpage : z' / pageSize = z / pageSize) (hout : ¬ (va ≤ z' ∧ z' < va + len)) :
    z' / pageSize = va / pageSize ∨ z' / pageSize = (va + len - 1) / pageSize := by
  simp only [pageSize] at *
  omega

/-- A swapped out page must be brought in before the loop comes to it. -/
theorem swapped_of_flat (hr : WritableRange k va len) (h : ∀ src, FlatAfter backing swap k va len src
      (storeLoop (idealFault backing swap) src len k va 0 len)) (h1 : va ≤ y) (h2 : y < va + len)
    (hs : k.Swapped y) : ∃ g, FirstGap k va len g ∧ Touched g (va + len) y := by
  by_contra hno
  have hfits := hr.fits
  -- the byte for `y` is none that is already there
  obtain ⟨v, hv0, hv1, hv2⟩ := exists_byte (k.mem (k.frame y + y % pageSize))
    (user backing swap k (va / pageSize * pageSize + y % pageSize))
    (user backing swap k ((va + len - 1) / pageSize * pageSize + y % pageSize))
  obtain ⟨w, hw⟩ := exists_ne_byte v
  have hflat := h (mark va y v w)
  have hpte : (storeLoop (idealFault backing swap) (mark va y v w) len k va 0 len).pte y = k.pte y :=
    storeLoop_pte (idealFault_ok backing swap) _ len le_rfl hr (by omega) hs.1 fun g hg ht => hno ⟨g, hg, ht⟩
  generalize storeLoop (idealFault backing swap) (mark va y v w) len k va 0 len = k' at hflat hpte
  have hbase : base pageSize (k'.frame y + y % pageSize) = k'.frame y :=
    base_eq (k'.frame_mod y) (mod_lt_pageSize y)
  rcases Classical.em (∃ z, va ≤ z ∧ z < va + len ∧ k'.Present z ∧ k'.frame z = k'.frame y) with
    ⟨z, hz1, hz2, hzp, hframe⟩ | hnone
  · -- the store went to the frame of another page of the range
    have hpage : z / pageSize ≠ y / pageSize := fun hp =>
      hs.2 (hzp.congr (((k'.pte_congr hp).trans hpte).symm))
    rcases hflat.second_page h1 h2 (by omega) hzp hpage hframe with
      hvw | ⟨z', -, hz'1, hz'2, hout, huser⟩
    · exact hw hvw
    · have haddr := base_add_mod pageSize z'
      rw [base, hz'2] at haddr
      obtain hp | hp := first_or_last_page hz1 hz2 hz'1 hout
      · rw [hp] at haddr
        exact hv1 (by rw [haddr, huser])
      · rw [hp] at haddr
        exact hv2 (by rw [haddr, huser])
  · -- the store went to a frame that is not mapped for the range
    have hmem := hflat.mem (k'.frame y + y % pageSize) fun z hz1 hz2 hzp hf =>
      hnone ⟨z, hz1, hz2, hzp, hf.trans hbase⟩
    have hback := hflat.back (y - va) (by omega)
    rw [Nat.add_sub_cancel' h1, hmem, mark, if_pos rfl, Kernel.frame_congr hpte] at hback
    exact hv0 hback.symm

/-- **The copies and flat user memory.** The copies implement flat user memory, with every handler that brings the right
contents in and for all bytes, exactly if no swapped out page of the range is reached before a `make_pages_present` brings it
in, no frame of the range is mapped a second time, and the pages which that call brings in with the area of its first page
get the contents of their own areas. -/
theorem flatCopy_iff {backing : VmArea → ℕ → Byte} {swap : Pte → ℕ → Byte} {k : Kernel ε}
    {va len : ℕ} (hva : pageSize ≤ va) (hr : WritableRange k va len) :
    (∀ fault, FaultOk backing swap fault → ∀ src dst, FlatCopy backing swap fault k va len src dst) ↔
      Plain k va len ∧ AreasAgree backing k va len := by
  constructor
  · intro h
    have hideal : ∀ src, FlatAfter backing swap k va len src
        (storeLoop (idealFault backing swap) src len k va 0 len) := fun src =>
      (flatCopy_iff_after (idealFault_ok backing swap) hr hva src src).mp
        (h _ (idealFault_ok backing swap) src src)
    have hplain : Plain k va len :=
      ⟨fun y h1 h2 => swapped_of_flat hr hideal h1 h2, fun y h1 h2 => sole_of_flat hr hideal h1 h2⟩
    refine ⟨hplain, fun y hy hout g hg => ?_⟩
    have hs := storeLoop_stored (idealFault_ok backing swap) (fun _ => 0) len 0 le_rfl hr hplain
    have := (hideal fun _ => 0).others y hy hout
    rw [hs.late y hy hout g hg, user, userVia_of_empty hg.2.2] at this
    exact this
  · rintro ⟨hplain, hagree⟩ fault hf src dst
    exact (flatCopy_iff_after hf hr hva src dst).mpr (flatAfter_of_plain hf hr hplain hagree src)

/-- An address space of one private page at 0x1000, with the entry `pte`. -/
def onePage (pte : Pte) : Kernel Unit where
  mem := fun _ => 0
  pgd := putPte (fun _ => .invalid) 0x1000 pte
  areas := [⟨0x1000, 0x2000, 3, 0x73, none, 0, none, 0⟩]
  rest := ()

theorem onePage_writable (pte : Pte) {len : ℕ} (hlen : len ≤ pageSize) :
    WritableRange (onePage pte) 0x1000 len := by
  simp only [pageSize] at hlen
  refine ⟨by simp only [taskSize]; omega, fun y h1 h2 => ?_, fun a ha => ?_⟩
  · refine ⟨⟨0x1000, 0x2000, 3, 0x73, none, 0, none, 0⟩, ?_, h1, by decide⟩
    rw [areaAt, onePage, List.find?_cons_of_pos (by rw [decide_eq_true_eq]; show y < 0x2000; omega)]
  · rw [onePage, List.mem_singleton] at ha
    rw [ha]
    rfl

theorem onePage_pte (pte : Pte) {y : ℕ} (h1 : 0x1000 ≤ y) (h2 : y < 0x1000 + pageSize) :
    (onePage pte).pte y = (onePage pte).pte 0x1000 := by
  refine Kernel.pte_congr _ ?_
  simp only [pageSize] at *
  omega

theorem onePage_plain {pte : Pte} (h : ¬ (onePage pte).Swapped 0x1000) {len : ℕ}
    (hlen : len ≤ pageSize) : Plain (onePage pte) 0x1000 len := by
  refine ⟨fun y h1 h2 hs => ?_, fun y h1 h2 _ z hz hne hp => ?_⟩
  · exact absurd (hs.congr (onePage_pte pte h1 (by omega)).symm) h
  · have hpage : y / pageSize = 0x1000 / pageSize := by
      simp only [pageSize] at *
      omega
    rw [hpage] at hne
    have hpte : (onePage pte).pte z = pteCleared := pteAt_putPte_of_ne _ pte (by decide) hz hne
    rw [Kernel.Present, hpte] at hp
    cases hp

/-- The page is in frame 0x10000. -/
theorem flatCopy_iff_present : WritableRange (onePage 0x10001) 0x1000 pageSize ∧
    ∀ (fault : FaultHandler Unit), FaultOk (fun _ _ => 0) (fun _ _ => 0) fault → ∀ src dst,
      FlatCopy (fun _ _ => 0) (fun _ _ => 0) fault (onePage 0x10001) 0x1000 pageSize src dst :=
  ⟨onePage_writable _ le_rfl, (flatCopy_iff (by decide) (onePage_writable _ le_rfl)).mpr
    ⟨onePage_plain (by decide) le_rfl, fun _ _ _ _ _ => rfl⟩⟩

/-- **A page in the swap file.** Its entry, for place 0x10 of swap file 1, is taken for the frame 0x10000: a byte for the
page goes there. -/
theorem swapped_page_strays : WritableRange (onePage 0x10601) 0x1000 1 ∧
    (onePage 0x10601).Swapped 0x1000 ∧ (onePage 0x10601).frame 0x1000 = 0x10000 ∧
    ∀ (fault : FaultHandler Unit) (dst : ℕ → Byte), FaultOk (fun _ _ => 0) (fun _ _ => 0) fault →
      ¬ FlatCopy (fun _ _ => 0) (fun _ _ => 0) fault (onePage 0x10601) 0x1000 1 (fun _ => 1) dst := by
  have hs : (onePage 0x10601).Swapped 0x1000 := by decide
  have hr : WritableRange (onePage 0x10601) 0x1000 1 := onePage_writable _ (by decide)
  refine ⟨hr, hs, by decide, fun fault dst hf hflat => ?_⟩
  have hafter := (flatCopy_iff_after hf hr (by decide) (fun _ => 1) dst).mp hflat
  have hkeep : (storeLoop fault (fun _ => 1) 1 (onePage 0x10601) 0x1000 0 1).pte 0x1000 =
      (onePage 0x10601).pte 0x1000 := by
    refine storeLoop_pte hf (fun _ => 1) 1 le_rfl hr (by decide) hs.1 fun g hg => ?_
    obtain rfl : g = 0x1000 := by have := hg.1; have := hg.2.1; omega
    exact absurd hg.2.2.1 hs.1
  -- the page is still not in storage, so nothing may be stored for it
  have hmem : ∀ x, (storeLoop fault (fun _ => 1) 1 (onePage 0x10601) 0x1000 0 1).mem x = 0 := by
    refine fun x => hafter.mem x fun y h1 h2 hp => ?_
    obtain rfl : y = 0x1000 := by omega
    exact absurd (hp.congr hkeep.symm) hs.2
  have hback := (hmem _).symm.trans (hafter.back 0 (by decide))
  cases hback

end Necessary

end I370Linux.UserCopy
