import I370Linux.VmaBooks

/-! # The bookkeeping over runs of the calls

`sys_mprotect`, `do_mlock` and `sys_mremap` keep the books, and so does every run of the calls in
which no `move_vma` misreads the lock bit of the structure that its merge has freed. -/

namespace I370Linux.Vma

open MmapAvl Runs List
open VmArea (lockedPages pages)
open Function (update update_of_ne update_self)

/-! ### Areas in place -/

section Place

variable {mm : Mm} {k l : ℤ}

theorem Mm.Books.replace (h : mm.Books k l) {P S : List ℕ} {i : ℕ} {b : VmArea}
    (hl : mm.mmap = P ++ i :: S) (hb : b.Whole) (hlt : b.vmStart < b.vmEnd)
    (hP : ∀ p ∈ P, (mm.vma p).vmEnd ≤ b.vmStart) (hS : ∀ s ∈ S, b.vmEnd ≤ (mm.vma s).vmStart) :
    (mm.setVma i b).Books (k + (b.pages - (mm.vma i).pages))
      (l + (b.lockedPages - (mm.vma i).lockedPages)) := by
  have hord : Ordered mm.vma (P ++ i :: S) := hl ▸ h.wellFormed.ordered
  have hnot : i ∉ P ++ S := by simpa using hord.notMem
  have hareas : (mm.setVma i b).areas = P.map mm.vma ++ b :: S.map mm.vma := by
    rw [Mm.areas, show (mm.setVma i b).mmap = P ++ i :: S from hl]
    exact map_update_insert hnot
  have hold : mm.areas = P.map mm.vma ++ mm.vma i :: S.map mm.vma := by
    rw [Mm.areas, hl, map_append, map_cons]
  refine h.exchange [mm.vma i] [b] hold hareas (by simpa using hb) ⟨?_, h.wellFormed.tree⟩ h.cache rfl ?_ ?_
  · rw [show (mm.setVma i b).mmap = P ++ i :: S from hl]
    exact ordered_update (ordered_insert.mp hord).1 hnot hlt hP hS
  · simp only [map_cons, map_nil, sum_singleton, Mm.setVma]
    omega
  · simp only [map_cons, map_nil, sum_singleton, Mm.setVma]
    omega

theorem Mm.Books.setUnlisted (h : mm.Books k l) {i : ℕ} (hi : i ∉ mm.mmap) (a : VmArea) :
    (mm.setVma i a).Books k l := by
  have hareas : (mm.setVma i a).areas = mm.areas := map_update_of_notMem hi
  exact h.exchange (X := []) [] [] rfl hareas nofun (setVma_wellFormed h.wellFormed hi a) h.cache rfl rfl rfl

theorem Mm.Books.congr {k' l' : ℤ} (h : mm.Books k l) (hk : k = k') (hl : l = l') :
    mm.Books k' l' := hk ▸ hl ▸ h

end Place

/-! ### Changing the flags of a range -/

section Fixup

variable {set : VmArea → VmArea} {on : Bool}

/-- The pages of `[start, fin)` that the change to `on` adds to `locked_vm`. -/
def lockDelta (a : VmArea) (on : Bool) (start fin : ℕ) : ℤ :=
  (if on then ((fin - start : ℕ) / (pageSize : ℤ)) else 0) -
    if a.locked then ((fin - start : ℕ) / (pageSize : ℤ)) else 0

/-- The part `[start, fin)` of area `vma`, which stands before the areas `S`, got new flags: its
locked pages are still to be counted, and the list behind it is as it was. -/
def FixedUp (mm : Mm) (k l : ℤ) (vma : ℕ) (on : Bool) (start fin : ℕ) (S : List ℕ) (mm' : Mm) : Prop :=
  mm'.Books k (l + lockDelta (mm.vma vma) on start fin) ∧
    (∃ P', mm'.mmap = P' ++ S) ∧ ∀ j ∈ S, mm'.vma j = mm.vma j

variable {mm : Mm} {k l : ℤ} {P S : List ℕ} {vma start fin : ℕ}

/-- What the four fixups need: the setter keeps the range and sets the lock bit to `on`, and
`[start, fin)` is a range of whole pages in the area. -/
structure FixupArgs (set : VmArea → VmArea) (on : Bool) (mm : Mm) (P S : List ℕ)
    (vma start fin : ℕ) : Prop where
  vmStart : ∀ b, (set b).vmStart = b.vmStart
  vmEnd : ∀ b, (set b).vmEnd = b.vmEnd
  locked : ∀ b, (set b).locked = on
  list : mm.mmap = P ++ vma :: S
  start_le : (mm.vma vma).vmStart ≤ start
  lt : start < fin
  fin_le : fin ≤ (mm.vma vma).vmEnd
  start_mod : start % pageSize = 0
  fin_mod : fin % pageSize = 0

section Pieces

variable {a : VmArea} {x : ℕ}

section

variable (ha : a.Whole) (hx : x % pageSize = 0)
include ha hx

theorem headTo_whole (hle : x ≤ a.vmEnd) : (a.headTo x).Whole := ⟨ha.1, hx, le_trans hle ha.2.2⟩

theorem tailFrom_whole : (a.tailFrom x).Whole :=
  ⟨hx, ha.2⟩

theorem pages_headTo_add_tailFrom (h1 : a.vmStart ≤ x)
    (h2 : x ≤ a.vmEnd) : (a.headTo x).pages + (a.tailFrom x).pages = a.pages := by
  obtain ⟨ha1, ha2, -⟩ := ha
  simp only [pages, VmArea.headTo, VmArea.tailFrom, pageSize] at *
  omega

end

end Pieces

namespace FixupArgs

variable (ha : FixupArgs set on mm P S vma start fin)

include ha

theorem whole_set {b : VmArea} (hb : b.Whole) : (set b).Whole := by
  rw [VmArea.Whole, ha.vmStart, ha.vmEnd]
  exact hb

theorem pages_set (b : VmArea) : (set b).pages = b.pages := by
  rw [pages, pages, ha.vmStart, ha.vmEnd]

theorem lockedPages_set (b : VmArea) : (set b).lockedPages = if on then b.pages else 0 := by
  rw [lockedPages, ha.locked, ha.pages_set]

theorem lockedPages_part {a part : VmArea} {kept : ℤ} (hp : part.pages + kept = a.pages)
    (hpart : part.pages = (fin - start : ℕ) / (pageSize : ℤ)) :
    (set part).lockedPages + (if a.locked then kept else 0) = a.lockedPages + lockDelta a on start fin := by
  rw [ha.lockedPages_set, lockedPages, lockDelta, ← hpart]
  split_ifs <;> omega

section

variable (h : mm.Books k l)
include h

theorem ordered : Ordered mm.vma (P ++ vma :: S) :=
  ha.list ▸ h.wellFormed.ordered

theorem whole : (mm.vma vma).Whole := h.whole vma (by simp [ha.list])

theorem vma_set (b : VmArea) : (mm.setVma vma b).vma vma = b ∧
    (∀ p ∈ P, (mm.setVma vma b).vma p = mm.vma p) ∧ ∀ s ∈ S, (mm.setVma vma b).vma s = mm.vma s :=
  ⟨update_self .., fun _ hp => update_of_notMem b (ha.ordered h).notMem.1 hp,
    fun _ hs => update_of_notMem b (ha.ordered h).notMem.2 hs⟩

theorem fixupAll (hs : start = (mm.vma vma).vmStart)
    (hf : fin = (mm.vma vma).vmEnd) : FixedUp mm k l vma on start fin S (fixupAll set mm vma) := by
  obtain ⟨-, hlt, hP, hS⟩ := ordered_insert.mp (ha.ordered h)
  have hb := h.replace (b := set (mm.vma vma)) ha.list (ha.whole_set (ha.whole h))
    (by rw [ha.vmStart, ha.vmEnd]; exact hlt) (by rw [ha.vmStart]; exact hP)
    (by rw [ha.vmEnd]; exact hS)
  refine ⟨hb.congr ?_ ?_, ⟨P ++ [vma], ?_⟩, (ha.vma_set h _).2.2⟩
  · rw [ha.pages_set]
    omega
  · rw [ha.lockedPages_set, hs, hf]
    rfl
  · show mm.mmap = _
    simpa using ha.list

theorem fixupStart (hs : start = (mm.vma vma).vmStart) (hf : fin < (mm.vma vma).vmEnd) :
    FixedUp mm k l vma on start fin S (fixupStart set mm vma fin) := by
  obtain ⟨-, hlt, hP, hS⟩ := ordered_insert.mp (ha.ordered h)
  obtain ⟨hv, hvP, hvS⟩ := ha.vma_set h ((mm.vma vma).tailFrom fin)
  have hw := ha.whole h
  have hsf := ha.lt
  have hnew : mm.kmemCacheAlloc ∉ mm.mmap := kmemCacheAlloc_notMem mm 0
  have hpages := pages_headTo_add_tailFrom hw ha.fin_mod (hs ▸ hsf.le) hf.le
  have h1 := h.replace (b := (mm.vma vma).tailFrom fin) ha.list (tailFrom_whole hw ha.fin_mod) hf
    (fun p hp => le_trans (hP p hp) (show (mm.vma vma).vmStart ≤ fin by omega)) hS
  obtain ⟨t, hins, h2⟩ := h1.insertVmStruct (i := mm.kmemCacheAlloc) (P := P) (S := vma :: S)
    (a := set ((mm.vma vma).headTo fin)) ha.list hnew
    (ha.whole_set (headTo_whole hw ha.fin_mod hf.le))
    (by rw [ha.vmStart, ha.vmEnd, hs] at *; exact hsf)
    (fun p hp => by rw [hvP p hp, ha.vmStart]; exact hP p hp)
    (fun s hs' => by
      rw [ha.vmEnd]
      obtain rfl | hs' := mem_cons.mp hs'
      · rw [hv]
        exact le_rfl
      · rw [hvS s hs']
        exact le_trans hf.le (hS s hs'))
  refine ⟨h2.congr ?_ ?_, ⟨P ++ [mm.kmemCacheAlloc, vma], ?_⟩, fun j hj => ?_⟩
  · rw [ha.pages_set]
    omega
  · have hpart := ha.lockedPages_part hpages (by rw [hs]; rfl)
    change _ + ((mm.vma vma).tailFrom fin).lockedPages = _ at hpart
    omega
  · show (Vma.insertVmStruct _ _).mmap = _
    rw [hins]
    simp
  · show (Vma.insertVmStruct _ _).vma j = _
    rw [hins]
    exact (update_of_notMem _ (fun he => hnew (by simp [he, ha.list])) hj).trans (hvS j hj)

theorem fixupEnd (hs : (mm.vma vma).vmStart < start) (hf : fin = (mm.vma vma).vmEnd) :
    FixedUp mm k l vma on start fin S (fixupEnd set mm vma start) := by
  obtain ⟨-, hlt, hP, hS⟩ := ordered_insert.mp (ha.ordered h)
  obtain ⟨hv, hvP, hvS⟩ := ha.vma_set h ((mm.vma vma).headTo start)
  have hw := ha.whole h
  have hsf : start < (mm.vma vma).vmEnd := hf ▸ ha.lt
  have hnew : mm.kmemCacheAlloc ∉ mm.mmap := kmemCacheAlloc_notMem mm 0
  have hpages := pages_headTo_add_tailFrom hw ha.start_mod hs.le hsf.le
  have h1 := h.replace (b := (mm.vma vma).headTo start) ha.list
    (headTo_whole hw ha.start_mod hsf.le) hs hP fun s hs' => le_trans hsf.le (hS s hs')
  obtain ⟨t, hins, h2⟩ := h1.insertVmStruct (i := mm.kmemCacheAlloc) (P := P ++ [vma]) (S := S)
    (a := set ((mm.vma vma).tailFrom start)) (show mm.mmap = _ by simpa using ha.list) hnew
    (ha.whole_set (tailFrom_whole hw ha.start_mod))
    (by rw [ha.vmStart, ha.vmEnd]; exact hsf)
    (fun p hp => by
      rw [ha.vmStart]
      obtain hp | hp := mem_append.mp hp
      · rw [hvP p hp]
        exact le_trans (hP p hp) hs.le
      · rw [mem_singleton.mp hp, hv]
        exact le_rfl)
    (fun s hs' => by rw [ha.vmEnd, hvS s hs']; exact hS s hs')
  refine ⟨h2.congr ?_ ?_, ⟨P ++ [vma, mm.kmemCacheAlloc], ?_⟩, fun j hj => ?_⟩
  · rw [ha.pages_set]
    omega
  · have hpart := ha.lockedPages_part ((add_comm _ _).trans hpages) (by rw [hf]; rfl)
    change _ + ((mm.vma vma).headTo start).lockedPages = _ at hpart
    omega
  · show (Vma.insertVmStruct _ _).mmap = _
    rw [hins]
    simp
  · show (Vma.insertVmStruct _ _).vma j = _
    rw [hins]
    exact (update_of_notMem _ (fun he => hnew (by simp [he, ha.list])) hj).trans (hvS j hj)

theorem fixupMiddle (hs : (mm.vma vma).vmStart < start) (hf : fin < (mm.vma vma).vmEnd) :
    FixedUp mm k l vma on start fin S (fixupMiddle set mm vma start fin) := by
  set a := mm.vma vma with harea
  obtain ⟨-, hlt, hP, hS⟩ := ordered_insert.mp (ha.ordered h)
  set mid := set ((a.tailFrom start).headTo fin)
  set left := mm.kmemCacheAlloc with hleft
  obtain ⟨hv, hvP, hvS⟩ := ha.vma_set h mid
  have hw : a.Whole := ha.whole h
  have hsf := ha.lt
  have hnewl : left ∉ mm.mmap := kmemCacheAlloc_notMem mm 0
  have hnewr : left + 1 ∉ mm.mmap := kmemCacheAlloc_notMem mm 1
  have hwmid : ((a.tailFrom start).headTo fin).Whole :=
    headTo_whole (tailFrom_whole hw ha.start_mod) ha.fin_mod hf.le
  have h1 := h.replace (b := mid) ha.list (ha.whole_set hwmid) (by rw [ha.vmStart, ha.vmEnd]; exact hsf)
    (fun p hp => by rw [ha.vmStart]; exact le_trans (hP p hp) hs.le)
    (fun s hs' => by rw [ha.vmEnd]; exact le_trans hf.le (hS s hs'))
  -- the right end is filled before the left end is linked in, but it is not listed yet
  have h2 := h1.setUnlisted hnewr (a.tailFrom fin)
  set mm2 := (mm.setVma vma mid).setVma (left + 1) (a.tailFrom fin) with hmm2
  have hv2 : ∀ j ∈ mm.mmap, mm2.vma j = (mm.setVma vma mid).vma j := fun j hj =>
    update_of_notMem _ hnewr hj
  obtain ⟨t, hins, h3⟩ := h2.insertVmStruct (i := left) (P := P) (S := vma :: S)
    (a := a.headTo start) ha.list hnewl
    (headTo_whole hw ha.start_mod (by omega)) hs
    (fun p hp => by rw [hv2 p (by simp [ha.list, hp]), hvP p hp]; exact hP p hp)
    (fun s hs' => by
      rw [hv2 s (by rw [ha.list]; exact mem_append_right _ hs')]
      obtain rfl | hs' := mem_cons.mp hs'
      · rw [hv, ha.vmStart]
        exact le_rfl
      · rw [hvS s hs']
        exact le_trans (show start ≤ a.vmEnd by omega) (hS s hs'))
  set mm3 := Vma.insertVmStruct (mm2.setVma left (a.headTo start)) left with hmm3
  have hl3 : mm3.mmap = P ++ [left, vma] ++ S := by rw [hins]; simp
  have hv3 : ∀ j ∈ mm.mmap, mm3.vma j = (mm.setVma vma mid).vma j := fun j hj => by
    rw [hins, ← hv2 j hj]
    exact update_of_notMem _ hnewl hj
  have hl3' : mm3.vma left = a.headTo start := by
    rw [hins]
    exact update_self ..
  have hr3 : mm3.setVma (left + 1) (a.tailFrom fin) = mm3 := by
    have hr : mm3.vma (left + 1) = a.tailFrom fin := by
      rw [hins]
      show update mm2.vma left _ (left + 1) = _
      rw [update_of_ne (by omega)]
      exact update_self ..
    rw [Mm.setVma, ← hr, Function.update_eq_self]
  have hnotr : left + 1 ∉ mm3.mmap := by
    rw [ha.list] at hnewr
    rw [hl3]
    simpa using hnewr
  obtain ⟨t', hins', h4⟩ := h3.insertVmStruct (i := left + 1) (a := a.tailFrom fin) hl3
    hnotr (tailFrom_whole hw ha.fin_mod) hf
    (fun p hp => by
      obtain hp | hp := mem_append.mp hp
      · rw [hv3 p (by simp [ha.list, hp]), hvP p hp]
        exact le_trans (hP p hp) (show a.vmStart ≤ fin by omega)
      obtain rfl | hp := mem_cons.mp hp
      · rw [hl3']
        exact hsf.le
      · rw [mem_singleton.mp hp, hv3 vma (by simp [ha.list]), hv, ha.vmEnd]
        exact le_rfl)
    (fun s hs' => by rw [hv3 s (by simp [ha.list, hs']), hvS s hs']; exact hS s hs')
  have heq : Vma.fixupMiddle set mm vma start fin =
      Vma.insertVmStruct (mm3.setVma (left + 1) (a.tailFrom fin)) (left + 1) := by
    rw [hr3, hmm3, hmm2]
    simp only [Vma.fixupMiddle, Mm.setVma, ← hleft]
    rw [Function.update_comm (show left + 1 ≠ left by omega)]
  have hp1 := pages_headTo_add_tailFrom hw ha.start_mod hs.le (by omega)
  have hp2 := pages_headTo_add_tailFrom (tailFrom_whole hw ha.start_mod) ha.fin_mod hsf.le hf.le
  change _ + (a.tailFrom fin).pages = _ at hp2
  rw [FixedUp, heq]
  refine ⟨h4.congr ?_ ?_, ⟨P ++ [left, vma, left + 1], ?_⟩, fun j hj => ?_⟩
  · rw [ha.pages_set, ← harea]
    omega
  · rw [ha.lockedPages_set, lockDelta, ← harea, show ((fin - start : ℕ) / (pageSize : ℤ)) =
        ((a.tailFrom start).headTo fin).pages from rfl,
      lockedPages, lockedPages, lockedPages,
      show (a.tailFrom fin).locked = a.locked from rfl,
      show (a.headTo start).locked = a.locked from rfl]
    split_ifs <;> omega
  · rw [hins']
    simp
  · have hjm : j ∈ mm.mmap := by simp [ha.list, hj]
    rw [hins']
    exact (update_of_notMem _ hnewr hjm).trans ((hv3 j hjm).trans (hvS j hj))

end

end FixupArgs

/-- **Every fixup leaves only the locked pages of its range to be counted.** -/
theorem fixup_spec {alloc : Bool × Bool} {mm' : Mm} (h : mm.Books k l)
    (ha : FixupArgs set on mm P S vma start fin)
    (hok : fixup set mm alloc vma start fin = some mm') :
    FixedUp mm k l vma on start fin S mm' := by
  have hs := ha.start_le
  have hf := ha.fin_le
  rw [fixup] at hok
  split_ifs at hok with h1 h2 _ h2
  · cases hok
    exact ha.fixupAll h h1 h2
  · cases hok
    exact ha.fixupStart h h1 (by omega)
  · cases hok
    exact ha.fixupEnd h (by omega) h2
  · cases hok
    exact ha.fixupMiddle h (by omega) (by omega)

end Fixup

/-! ### The lock bit -/

section LockBit

theorem vm_locked_eq : VM_LOCKED = BitVec.twoPow 32 13 := by decide

theorem lockBit (f : BitVec 32) : (f &&& VM_LOCKED != 0) = f.getLsbD 13 := by
  rw [vm_locked_eq, BitVec.and_twoPow]
  cases f.getLsbD 13 <;> decide

theorem lockBit_or (f : BitVec 32) : (f ||| VM_LOCKED).getLsbD 13 = true := by
  rw [BitVec.getLsbD_or, show VM_LOCKED.getLsbD 13 = true by decide, Bool.or_true]

theorem lockBit_clear (f : BitVec 32) : (f &&& ~~~VM_LOCKED).getLsbD 13 = false := by
  rw [BitVec.getLsbD_and, show (~~~VM_LOCKED).getLsbD 13 = false by decide, Bool.and_false]

theorem or_locked_of_lockBit {f : BitVec 32} (h : f.getLsbD 13 = true) : f ||| VM_LOCKED = f := by
  refine BitVec.eq_of_getLsbD_eq fun i hi => ?_
  rw [BitVec.getLsbD_or, vm_locked_eq, BitVec.getLsbD_twoPow]
  obtain rfl | hne := eq_or_ne 13 i
  · simp [h]
  · simp [hne]

theorem clear_locked_of_lockBit {f : BitVec 32} (h : f.getLsbD 13 = false) :
    (f ||| VM_LOCKED) &&& ~~~VM_LOCKED = f := by
  refine BitVec.eq_of_getLsbD_eq fun i hi => ?_
  rw [BitVec.getLsbD_and, BitVec.getLsbD_or, BitVec.getLsbD_not, vm_locked_eq, BitVec.getLsbD_twoPow]
  obtain rfl | hne := eq_or_ne 13 i
  · rw [h]
    simp
  · simp [hne, hi]

theorem lockBit_prot {prot : BitVec 32} (f : BitVec 32) (h : prot &&& ~~~PROT_ALL = 0) :
    (prot ||| (f &&& ~~~PROT_ALL)).getLsbD 13 = f.getLsbD 13 := by
  have hmask : (~~~PROT_ALL : BitVec 32).getLsbD 13 = true := by decide
  have hprot := congrArg (fun x : BitVec 32 => x.getLsbD 13) h
  simp only [BitVec.getLsbD_and, hmask, Bool.and_true] at hprot
  rw [BitVec.getLsbD_or, BitVec.getLsbD_and, hmask, hprot]
  simp

end LockBit

/-! ### The loop over a range -/

section Range

variable {k l : ℤ}

theorem findVma_vma (mm : Mm) (addr : ℕ) :
    (findVma mm addr).2.vma = mm.vma ∧ (findVma mm addr).2.mmap = mm.mmap := by
  rw [findVma]
  split
  · exact ⟨rfl, rfl⟩
  · split <;> exact ⟨rfl, rfl⟩

/-- What the loops need of their body: on a range of whole pages inside an area it keeps the books
and the list behind the area. -/
def KeepsBooks (k l : ℤ) (body : Mm → ℕ → ℕ → ℕ → Except Errno Mm) : Prop :=
  ∀ {mm mm' : Mm} {P S : List ℕ} {vma start fin : ℕ}, mm.Books k l → mm.mmap = P ++ vma :: S →
    (mm.vma vma).vmStart ≤ start → start < fin → fin ≤ (mm.vma vma).vmEnd →
    start % pageSize = 0 → fin % pageSize = 0 → body mm vma start fin = .ok mm' →
    mm'.Books k l ∧ (∃ P', mm'.mmap = P' ++ S) ∧ ∀ j ∈ S, mm'.vma j = mm.vma j

variable {body : Mm → ℕ → ℕ → ℕ → Except Errno Mm}

section Loop

variable (hbody : KeepsBooks k l body)
include hbody

theorem rangeLoop_books (gap : Errno) {fin : ℕ} (hfin : fin % pageSize = 0) (rest : List ℕ) :
    ∀ {vma nstart : ℕ} {mm : Mm} {P : List ℕ},
    mm.Books k l → mm.mmap = P ++ vma :: rest → (mm.vma vma).vmStart ≤ nstart →
    nstart < (mm.vma vma).vmEnd → nstart < fin → nstart % pageSize = 0 →
    (rangeLoop body gap fin rest vma mm nstart).2.Books k l := by
  induction rest with
  | nil =>
    intro vma nstart mm P h hl hs hlt hf hmod
    rw [rangeLoop]
    split
    · next hle =>
      split
      · exact h
      · next hb => exact (hbody h hl hs hf hle hmod hfin hb).1
    · split
      · exact h
      · next hb => exact (hbody h hl hs hlt le_rfl hmod (h.whole vma (by simp [hl])).2.1 hb).1
  | cons next rest ih =>
    intro vma nstart mm P h hl hs hlt hf hmod
    have hend := (h.whole vma (by simp [hl])).2.1
    rw [rangeLoop]
    dsimp only
    split
    · next hle =>
      split
      · exact h
      · next hb => exact (hbody h hl hs hf hle hmod hfin hb).1
    · next hle =>
      split
      · exact h
      · next mm' hb =>
        obtain ⟨h', ⟨P', hl'⟩, -⟩ := hbody h hl hs hlt le_rfl hmod hend hb
        split
        · exact h'
        · next hadj =>
          have hadj := not_not.mp hadj
          have hnext := h'.wellFormed.ordered.1 next (by simp [hl'])
          exact ih h' hl' hadj.le (by omega) (by omega) hend

theorem changeRange_books (gap : Errno) {mm : Mm} {start fin : ℕ}
    (h : mm.Books k l) (hlt : start < fin) (hs : start % pageSize = 0) (hf : fin % pageSize = 0) :
    (changeRange body gap mm start fin).2.Books k l := by
  have hfind := h.findVma start
  rw [changeRange]
  rcases hp : findVma mm start with ⟨o, mm1⟩
  rw [hp] at hfind
  cases o with
  | none => exact hfind
  | some vma =>
    obtain ⟨-, hmem, hend⟩ := h.found hp
    dsimp only at hfind ⊢
    split
    · exact hfind
    · next hle =>
      obtain ⟨A, B, hAB⟩ := append_of_mem hmem
      have hnext : vmNext mm1.mmap (some vma) = B := by
        rw [hAB]
        exact vmNext_some (hAB ▸ hfind.wellFormed.ordered).notMem.1
      rw [hnext]
      exact (rangeLoop_books hbody gap hf B hfind hAB (by omega) hend hlt hs).mergeSegments _ _

end Loop

end Range

section Protect

variable {mm mm' : Mm} {k l : ℤ} {P S : List ℕ} {vma start fin : ℕ} {alloc : Bool × Bool}
  {newflags : BitVec 32}

theorem locked_eq (a : VmArea) : a.locked = a.vmFlags.getLsbD 13 := lockBit a.vmFlags

theorem lockDelta_self (a : VmArea) (start fin : ℕ) : lockDelta a a.locked start fin = 0 := by
  rw [lockDelta, sub_self]

theorem Mm.Books.countLocked (h : mm.Books k l) (n : ℤ) :
    ({ mm with lockedVm := mm.lockedVm + n } : Mm).Books k (l - n) where
  wellFormed := ⟨h.wellFormed.ordered, h.wellFormed.tree⟩
  __ := h
  lockedVm := by
    have := h.lockedVm
    show mm.lockedVm + n + (l - n) = (mm.areas.map (·.lockedPages)).sum
    omega

section

variable (h : mm.Books k l) (hl : mm.mmap = P ++ vma :: S) (hs : (mm.vma vma).vmStart ≤ start)
  (hlt : start < fin) (hf : fin ≤ (mm.vma vma).vmEnd) (hsm : start % pageSize = 0) (hfm : fin % pageSize = 0)
include h hl hs hlt hf hsm hfm

/-- `mprotect_fixup` keeps the books, since `PROT_READ`, `PROT_WRITE` and `PROT_EXEC` are not the
lock bit. -/
theorem mprotectFixup_books (hbit : newflags.getLsbD 13 = (mm.vma vma).locked)
    (hok : mprotectFixup mm alloc vma start fin newflags = some mm') :
    mm'.Books k l ∧ (∃ P', mm'.mmap = P' ++ S) ∧ ∀ j ∈ S, mm'.vma j = mm.vma j := by
  rw [mprotectFixup] at hok
  split at hok
  · cases hok
    exact ⟨h, ⟨P ++ [vma], by simp [hl]⟩, fun _ _ => rfl⟩
  have hargs : FixupArgs (fun a => { a with vmFlags := newflags, vmPageProt := newflags &&& 0xf })
      (mm.vma vma).locked mm P S vma start fin :=
    ⟨fun _ => rfl, fun _ => rfl, fun _ => (locked_eq _).trans hbit, hl, hs, hlt, hf, hsm, hfm⟩
  have hfix := fixup_spec h hargs hok
  refine ⟨hfix.1.congr rfl ?_, hfix.2⟩
  rw [lockDelta_self, add_zero]

/-- `mlock_fixup` keeps the books: it counts the pages of the range, and the early return for equal
flags is taken exactly when their lock bit stays. -/
theorem mlockFixup_books (hbit : newflags ≠ (mm.vma vma).vmFlags → newflags.getLsbD 13 = !(mm.vma vma).locked)
    (hok : mlockFixup mm alloc vma start fin newflags = some mm') :
    mm'.Books k l ∧ (∃ P', mm'.mmap = P' ++ S) ∧ ∀ j ∈ S, mm'.vma j = mm.vma j := by
  rw [mlockFixup] at hok
  split at hok
  · cases hok
    exact ⟨h, ⟨P ++ [vma], by simp [hl]⟩, fun _ _ => rfl⟩
  · next hne =>
    split at hok
    · cases hok
    · next mm1 hfixup =>
      cases hok
      have hargs : FixupArgs (fun a => { a with vmFlags := newflags }) (newflags.getLsbD 13)
          mm P S vma start fin :=
        ⟨fun _ => rfl, fun _ => rfl, fun _ => locked_eq _, hl, hs, hlt, hf, hsm, hfm⟩
      obtain ⟨hb, hlist, hsame⟩ := fixup_spec h hargs hfixup
      have hdelta : l + lockDelta (mm.vma vma) (newflags.getLsbD 13) start fin -
          (if newflags &&& VM_LOCKED ≠ 0 then ((fin - start : ℕ) / (pageSize : ℤ))
            else -((fin - start : ℕ) / (pageSize : ℤ))) = l := by
        have htest : (newflags &&& VM_LOCKED ≠ 0) ↔ newflags.getLsbD 13 = true := by
          rw [← lockBit, bne_iff_ne]
        simp only [lockDelta, htest, hbit hne]
        cases (mm.vma vma).locked <;> simp
      obtain ⟨hv, hm⟩ := findVma_vma { mm1 with lockedVm := _ } start
      refine ⟨((hb.countLocked _).congr rfl hdelta).makePagesPresent start, ?_, ?_⟩
      · exact hlist.imp fun _ h => hm.trans h
      · exact fun j hj => (congrFun hv j).trans (hsame j hj)

end

variable (alloc : ℕ → Bool × Bool)

theorem mprotect_keepsBooks {prot : BitVec 32} (hprot : prot &&& ~~~PROT_ALL = 0) : KeepsBooks k l fun mm vma start fin =>
      let newflags := prot ||| ((mm.vma vma).vmFlags &&& ~~~PROT_ALL)
      if newflags &&& ~~~(newflags >>> 4) &&& 0xf ≠ 0 then .error .EACCES
      else
        match mprotectFixup mm (alloc vma) vma start fin newflags with
        | none => .error .ENOMEM
        | some mm => .ok mm := by
  intro mm mm' P S vma start fin h hl hs hlt hf hsm hfm hok
  dsimp only at hok
  split at hok
  · cases hok
  split at hok
  · cases hok
  · next hfix =>
    cases hok
    refine mprotectFixup_books h hl hs hlt hf hsm hfm ?_ hfix
    rw [lockBit_prot _ hprot, locked_eq]

theorem Mm.Books.sysMprotect (h : mm.Books k l) (start len : ℕ) (prot : BitVec 32) :
    (sysMprotect mm alloc start len prot).2.Books k l := by
  rw [Vma.sysMprotect]
  split
  · exact h
  next hmod =>
  dsimp only
  split
  · exact h
  split
  · exact h
  next hprot =>
  split
  · exact h
  · have hstart : start % pageSize = 0 := not_not.mp hmod
    have hend := add_pageAlign_mod hstart len
    exact changeRange_books (mprotect_keepsBooks alloc (not_not.mp hprot)) _ h (by omega) hstart
      (by simp only [pageSize] at *; omega)

theorem mlock_keepsBooks (on : Bool) : KeepsBooks k l fun mm vma start fin =>
      let newflags := (mm.vma vma).vmFlags ||| VM_LOCKED
      let newflags := if on then newflags else newflags &&& ~~~VM_LOCKED
      match mlockFixup mm (alloc vma) vma start fin newflags with
      | none => .error .EAGAIN
      | some mm => .ok mm := by
  intro mm mm' P S vma start fin h hl hs hlt hf hsm hfm hok
  dsimp only at hok
  split at hok
  · cases hok
  · next hfix =>
    cases hok
    refine mlockFixup_books h hl hs hlt hf hsm hfm (fun hne => ?_) hfix
    rw [locked_eq]
    -- flags whose bit is already as wanted do not change
    cases on <;> simp only [if_true, Bool.false_eq_true, if_false] at hne ⊢
    · rw [lockBit_clear]
      rcases hb : (mm.vma vma).vmFlags.getLsbD 13 with _ | _
      · exact absurd (clear_locked_of_lockBit hb) hne
      · rfl
    · rw [lockBit_or]
      rcases hb : (mm.vma vma).vmFlags.getLsbD 13 with _ | _
      · rfl
      · exact absurd (or_locked_of_lockBit hb) hne

theorem Mm.Books.doMlock (h : mm.Books k l) (capable : Bool) {start : ℕ} (hstart : start % pageSize = 0)
    (len : ℕ) (on : Bool) : (doMlock mm capable alloc start len on).2.Books k l := by
  rw [Vma.doMlock]
  split
  · exact h
  dsimp only
  split
  · exact h
  split
  · exact h
  · have hend := add_pageAlign_mod hstart len
    exact changeRange_books (mlock_keepsBooks alloc on) _ h (by omega) hstart
      (by simp only [pageSize] at *; omega)

theorem Mm.Books.sysMlock (h : mm.Books k l) (capable withinLimits : Bool) (start len : ℕ) (on : Bool) :
    (sysMlock mm capable withinLimits alloc start len on).2.Books k l := by
  rw [Vma.sysMlock]
  split
  · exact h
  · exact h.doMlock alloc capable (Nat.mul_mod_left _ _) _ on

end Protect

/-! ### Moving an area -/

section Move

variable {mm : Mm} {k l : ℤ}

/-- A range of whole pages below `TASK_SIZE` that meets none of the areas `L`. -/
def FreeRange (v : ℕ → VmArea) (L : List ℕ) (addr len : ℕ) : Prop :=
  addr % pageSize = 0 ∧ addr + len ≤ taskSize ∧
    ∀ i ∈ L, (v i).vmEnd ≤ addr ∨ addr + len ≤ (v i).vmStart

theorem gapFrom_free {v : ℕ → VmArea} {len : ℕ} (hlen : len ≤ taskSize) (L : List ℕ) : ∀ {addr : ℕ},
    Ordered v L → (∀ i ∈ L, (v i).Whole) → addr % pageSize = 0 → (∀ i ∈ L, addr ≤ (v i).vmEnd) →
    gapFrom v len addr L ≠ 0 →
    addr ≤ gapFrom v len addr L ∧ FreeRange v L (gapFrom v len addr L) len := by
  induction L with
  | nil =>
    intro addr _ _ hmod _ hne
    rw [gapFrom] at hne ⊢
    split at hne
    · exact absurd rfl hne
    · next hfit =>
      rw [if_neg hfit]
      exact ⟨le_rfl, hmod, by omega, by simp⟩
  | cons vmm L ih =>
    intro addr hord hwhole hmod hbelow hne
    obtain ⟨hlt, hord', hL⟩ := ordered_cons.mp hord
    rw [gapFrom] at hne ⊢
    split at hne
    · exact absurd rfl hne
    next hfit =>
    rw [if_neg hfit]
    split at hne
    · next hgap =>
      rw [if_pos hgap]
      refine ⟨le_rfl, hmod, by omega, forall_mem_cons.mpr ⟨.inr hgap, fun i hi => ?_⟩⟩
      have := hL i hi
      exact .inr (by omega)
    · next hgap =>
      rw [if_neg hgap]
      have hstep : ∀ i ∈ L, (v vmm).vmEnd ≤ (v i).vmEnd := fun i hi =>
        le_trans (hL i hi) (hord'.1 i hi).le
      obtain ⟨hle, hmod', hfit', hfree⟩ := ih hord' (fun i hi => hwhole i (mem_cons_of_mem _ hi))
        (hwhole vmm (mem_cons_self ..)).2.1 hstep hne
      exact ⟨le_trans (hbelow vmm (mem_cons_self ..)) hle, hmod', hfit',
        forall_mem_cons.mpr ⟨.inl hle, hfree⟩⟩

/-- Where `get_unmapped_area` begins to look. -/
def hint (addr : ℕ) : ℕ := pageAlign (if addr = 0 then taskSize / 3 else addr)

theorem getUnmappedArea_mm (mm : Mm) (addr len : ℕ) : (getUnmappedArea mm addr len).2.vma = mm.vma ∧
    (getUnmappedArea mm addr len).2.mmap = mm.mmap := by
  rw [getUnmappedArea]
  split
  · exact ⟨rfl, rfl⟩
  · dsimp only
    generalize pageAlign (if addr = 0 then taskSize / 3 else addr) = start
    have hmm := findVma_vma mm start
    split
    all_goals
      next heq =>
      rw [heq] at hmm
      exact hmm

/-- The walk of `get_unmapped_area` is along the areas that end above the hint. -/
theorem getUnmappedArea_walk (h : mm.WellFormed) (hcache : ∀ i ∈ mm.mmapCache, i ∈ mm.mmap) {len : ℕ}
    (hlen : len ≤ taskSize) (addr : ℕ) : ∃ A L, mm.mmap = A ++ L ∧ (∀ i ∈ A, (mm.vma i).vmEnd ≤ hint addr) ∧
      (∀ i ∈ L, hint addr ≤ (mm.vma i).vmEnd) ∧
      (getUnmappedArea mm addr len).1 = gapFrom mm.vma len (hint addr) L := by
  rw [getUnmappedArea, if_neg (not_lt.mpr hlen), hint]
  dsimp only
  generalize pageAlign (if addr = 0 then taskSize / 3 else addr) = start
  obtain ⟨hfirst, -⟩ := findVma_spec start h hcache
  obtain ⟨hv, hl⟩ := findVma_vma mm start
  rcases hp : findVma mm start with ⟨o, mm1⟩
  rw [hp] at hfirst hv hl
  cases o with
  | none =>
    simp only at hfirst hv ⊢
    refine ⟨mm.mmap, [], (append_nil _).symm, fun i hi => ?_, by simp, by rw [hv]⟩
    simpa using List.find?_eq_none.mp hfirst.symm i hi
  | some vmm =>
    simp only at hfirst hv hl ⊢
    obtain ⟨hab, A, B, hAB, hA⟩ := List.find?_eq_some_iff_append.mp hfirst.symm
    have hord : Ordered mm.vma (A ++ vmm :: B) := hAB ▸ h.ordered
    obtain ⟨-, hB, hvmm⟩ := ordered_cons.mp (ordered_append.mp hord).2.1
    have habove : start < (mm.vma vmm).vmEnd := by simpa using hab
    refine ⟨A, vmm :: B, hAB, fun i hi => by simpa using hA i hi, ?_, by rw [hl, hv, hAB, vmNext_some hord.notMem.1]⟩
    exact forall_mem_cons.mpr ⟨habove.le, fun i hi => le_trans habove.le (le_trans (hvmm i hi) (hB.1 i hi).le)⟩

theorem getUnmappedArea_free (h : mm.WellFormed) (hcache : ∀ i ∈ mm.mmapCache, i ∈ mm.mmap)
    (hwhole : ∀ i ∈ mm.mmap, (mm.vma i).Whole) {addr len : ℕ} (hne : (getUnmappedArea mm addr len).1 ≠ 0) :
    hint addr ≤ (getUnmappedArea mm addr len).1 ∧ FreeRange mm.vma mm.mmap (getUnmappedArea mm addr len).1 len := by
  have hlen : len ≤ taskSize := not_lt.mp fun hlt => hne (by rw [getUnmappedArea, if_pos hlt])
  obtain ⟨A, L, hAL, hA, hL, heq⟩ := getUnmappedArea_walk h hcache hlen addr
  have hord := hAL ▸ h.ordered
  rw [heq] at hne ⊢
  obtain ⟨hle, hmod, hfit, hfree⟩ := gapFrom_free hlen L (ordered_append.mp hord).2.1
    (fun i hi => hwhole i (hAL ▸ mem_append_right A hi)) (pageAlign_mod _) hL hne
  refine ⟨hle, hmod, hfit, ?_⟩
  rw [hAL]
  exact forall_mem_append.mpr ⟨fun i hi => .inl ((hA i hi).trans hle), hfree⟩

theorem gapFrom_least {v : ℕ → VmArea} {len a : ℕ} (L : List ℕ) : ∀ {addr : ℕ}, 0 < addr →
    (∀ i ∈ L, 0 < (v i).vmEnd) → addr ≤ a → FreeRange v L a len →
    gapFrom v len addr L ≠ 0 ∧ gapFrom v len addr L ≤ a := by
  induction L with
  | nil =>
    intro addr hpos _ hle ⟨_, hfit, _⟩
    rw [gapFrom, if_neg (by omega)]
    exact ⟨hpos.ne', hle⟩
  | cons vmm L ih =>
    intro addr hpos hend hle ⟨hmod, hfit, hapart⟩
    obtain ⟨hvmm, hL⟩ := forall_mem_cons.mp hapart
    obtain ⟨h0, hend⟩ := forall_mem_cons.mp hend
    rw [gapFrom, if_neg (by omega)]
    split
    · exact ⟨hpos.ne', hle⟩
    · exact ih h0 hend (by omega) ⟨hmod, hfit, hL⟩

theorem hint_pos {addr : ℕ} (h : addr ≤ taskSize) : 0 < hint addr := by
  simp only [hint, pageAlign, pageSize, taskSize] at *
  split_ifs <;> omega

/-- **First fit.** `get_unmapped_area` returns the least address from the hint on with room for `len` bytes, and 0
exactly if there is none. -/
theorem getUnmappedArea_firstFit (h : mm.WellFormed) (hcache : ∀ i ∈ mm.mmapCache, i ∈ mm.mmap)
    (hwhole : ∀ i ∈ mm.mmap, (mm.vma i).Whole) {addr : ℕ} (haddr : addr ≤ taskSize) (len : ℕ) :
    ((getUnmappedArea mm addr len).1 = 0 ↔
      taskSize < len ∨ ¬ ∃ a, hint addr ≤ a ∧ FreeRange mm.vma mm.mmap a len) ∧
    ((getUnmappedArea mm addr len).1 ≠ 0 →
      IsLeast {a | hint addr ≤ a ∧ FreeRange mm.vma mm.mmap a len} (getUnmappedArea mm addr len).1) := by
  have hfree := @getUnmappedArea_free _ h hcache hwhole addr len
  have hleast : ∀ a, hint addr ≤ a → FreeRange mm.vma mm.mmap a len →
      (getUnmappedArea mm addr len).1 ≠ 0 ∧ (getUnmappedArea mm addr len).1 ≤ a := by
    intro a hle ha
    obtain ⟨A, L, hAL, -, -, heq⟩ := getUnmappedArea_walk h hcache ((Nat.le_add_left len a).trans ha.2.1) addr
    rw [heq]
    rw [hAL] at ha
    exact gapFrom_least L (hint_pos haddr) (fun i hi => Nat.zero_lt_of_lt (h.ordered.1 i (hAL ▸ mem_append_right A hi)))
      hle ⟨ha.1, ha.2.1, fun i hi => ha.2.2 i (mem_append_right A hi)⟩
  refine ⟨⟨fun h0 => .inr ?_, fun hno => ?_⟩, fun hne => ⟨hfree hne, fun a ha => (hleast a ha.1 ha.2).2⟩⟩
  · rintro ⟨a, hle, ha⟩
    exact (hleast a hle ha).1 h0
  · by_contra hne
    obtain ⟨hle, ha⟩ := hfree hne
    exact hno.elim (fun hlt => by have := ha.2.1; omega) fun hno => hno ⟨_, hle, ha⟩

theorem getUnmappedArea_firstFit_behind : (getUnmappedArea fourPages 0x2000 0x1000).1 = 0x5000 ∧ IsLeast
    {a | hint 0x2000 ≤ a ∧ FreeRange fourPages.vma fourPages.mmap a 0x1000} (getUnmappedArea fourPages 0x2000 0x1000).1 :=
  ⟨by decide, (getUnmappedArea_firstFit (by decide) (by decide) (by decide) (by decide) 0x1000).2 (by decide)⟩

/-- A range without bytes at the hint meets no area, but is passed over if the hint is inside of one. -/
theorem empty_range_passed_over : fourPages.WellFormed ∧ hint 0x2000 = 0x2000 ∧
    (∀ i ∈ fourPages.mmap, ∀ x, 0x2000 ≤ x → x < 0x2000 + 0 → ¬ (fourPages.vma i).Contains x) ∧
    (getUnmappedArea fourPages 0x2000 0).1 = 0x5000 :=
  ⟨by decide, by decide, fun _ _ _ h h' => absurd h' (not_lt.mpr h), by decide⟩

theorem doMunmap_vmFlags (h : mm.WellFormed) (alloc : Bool) (addr len : ℕ) {j : ℕ} (hj : j ∈ mm.mmap) :
    ((doMunmap mm alloc addr len).mm.vma j).vmFlags = (mm.vma j).vmFlags := by
  by_cases hok : (doMunmap mm alloc addr len).error = none
  · rcases doMunmap_spec h hok with
      ⟨hmm, -, -⟩ | ⟨A, R, C, e, mm', -, -, -, -, -, -, he, hrel, hmm, -⟩
    · rw [hmm]
    · obtain ⟨D, v, t, rfl, -, -, -, -, hflags⟩ := hrel
      rw [hmm]
      exact hflags j (fun hje => he (hje ▸ hj))
  · rw [doMunmap_error mm alloc addr len hok]

variable {env : MremapEnv} {vma addr oldLen newLen : ℕ}

section

variable {o : Option (VmArea × ℕ)} {mm' : Mm} (h : mm.Books k l) (hlen : newLen % pageSize = 0)
  (hpos : 0 < newLen) (hin : moveIn mm env vma addr newLen = (o, mm'))
include h hlen hpos hin

theorem moveIn_cases :
    (o = none ∧ (mm' = mm ∨ mm' = (getUnmappedArea mm addr newLen).2)) ∨
    ∃ n mm1, (getUnmappedArea mm addr newLen).2 = mm1 ∧ o = some (n, mm1.kmemCacheAlloc) ∧
      n.attr = (mm.vma vma).attr ∧ n.vmEnd = n.vmStart + newLen ∧ n.Whole ∧ n.vmStart < n.vmEnd ∧
      (∀ i ∈ mm1.mmap, (mm1.vma i).vmEnd ≤ n.vmStart ∨ n.vmEnd ≤ (mm1.vma i).vmStart) ∧
      mm' = mergeSegments (insertVmStruct (mm1.setVma mm1.kmemCacheAlloc n) mm1.kmemCacheAlloc)
        n.vmStart n.vmEnd := by
  rw [moveIn] at hin
  split at hin
  · cases hin
    exact .inl ⟨rfl, .inl rfl⟩
  obtain ⟨hv, hl⟩ := getUnmappedArea_mm mm addr newLen
  have hfree := fun hne => (@getUnmappedArea_free _ h.wellFormed h.cache h.whole addr newLen hne).2
  rcases hg : getUnmappedArea mm addr newLen with ⟨newAddr, mm1⟩
  rw [hg] at hin hv hl hfree
  simp only at hin hv hl hfree
  split at hin
  · cases hin
    exact .inl ⟨rfl, .inr rfl⟩
  next hne =>
  obtain ⟨hmod, hfit, hfree⟩ := hfree fun h0 => hne (.inl h0)
  cases hin
  refine .inr ⟨_, _, rfl, rfl, congrArg (VmArea.attr <| · vma) hv, rfl, ⟨hmod, ?_, hfit⟩, ?_, ?_, rfl⟩
  · simp [Nat.add_mod, hmod, hlen]
  · exact Nat.lt_add_of_pos_right hpos
  · rw [hl, hv]
    exact hfree

/-- Either nothing changed, or the new area waits to be counted and the flags in its structure are the
area's. -/
theorem moveIn_books :
    (o = none ∧ mm'.Books k l) ∨ ∃ n newVma, o = some (n, newVma) ∧
      mm'.Books (k + newLen / pageSize) (l + if n.locked then (newLen / pageSize : ℤ) else 0) ∧
      (mm'.vma newVma).vmFlags = n.vmFlags := by
  have hb := getUnmappedArea_books h addr newLen
  obtain ⟨rfl, hmm⟩ | ⟨n, mm1, rfl, rfl, -, hend, hwhole, hlt, hfree, rfl⟩ := moveIn_cases h hlen hpos hin
  · refine .inl ⟨rfl, ?_⟩
    obtain rfl | rfl := hmm
    · exact h
    · exact hb
  have hpages : n.pages = newLen / (pageSize : ℤ) := by
    rw [pages, hend, Nat.add_sub_cancel_left]
  obtain ⟨hplace, hvma⟩ := hb.place hwhole hlt hfree
  rw [hpages, lockedPages, hpages] at hplace
  refine .inr ⟨_, _, rfl, hplace.mergeSegments _ _, ?_⟩
  rw [mergeSegments_vmFlags, hvma, update_self]

end

theorem Mm.Books.moveVma (h : mm.Books k l) (hlen : newLen % pageSize = 0) (hpos : 0 < newLen)
    (hread : ∀ n newVma mm', moveIn mm env vma addr newLen = (some (n, newVma), mm') →
      newVma ∉ mm'.mmap → env.stale.locked = n.locked) :
    (moveVma mm env vma addr oldLen newLen).2.Books k l := by
  rw [Vma.moveVma]
  rcases hin : moveIn mm env vma addr newLen with ⟨o, mm1⟩
  obtain ⟨rfl, hb⟩ | ⟨n, newVma, rfl, hb, hflags⟩ := moveIn_books h hlen hpos hin
  · exact hb
  simp only
  have hseen : (if newVma ∉ mm1.mmap then env.stale
      else (Vma.doMunmap mm1 env.allocExtra addr oldLen).mm.vma newVma).locked = n.locked := by
    split
    · next hfreed => exact hread n newVma mm1 hin hfreed
    · next hlisted =>
      refine locked_congr (.trans ?_ hflags)
      exact doMunmap_vmFlags hb.wellFormed _ _ _ (not_not.mp hlisted)
  rw [hseen]
  have hcount := (hb.doMunmap env.allocExtra addr oldLen).charge n.locked (newLen / pageSize)
  rw [add_sub_cancel_right, add_sub_cancel_right] at hcount
  split
  · exact hcount.makePagesPresent _
  · exact hcount

theorem Mm.Books.grow (h : mm.Books k l) (hvma : vma ∈ mm.mmap) (hstart : (mm.vma vma).vmStart ≤ addr)
    (haddr : addr % pageSize = 0) (hnew : newLen % pageSize = 0) (hlt : oldLen < newLen)
    (hold : oldLen = (mm.vma vma).vmEnd - addr) (habove : addr < (mm.vma vma).vmEnd)
    (hmax : newLen ≤ maxAddr mm vma - addr) :
    ((mm.setVma vma { mm.vma vma with vmEnd := addr + newLen }).charge (mm.vma vma).locked
      ((newLen - oldLen : ℕ) / (pageSize : ℤ))).Books k l := by
  obtain ⟨A, B, hAB⟩ := append_of_mem hvma
  have hord : Ordered mm.vma (A ++ vma :: B) := hAB ▸ h.wellFormed.ordered
  obtain ⟨-, hne, hA, -⟩ := ordered_insert.mp hord
  have hwhole := h.whole vma hvma
  rw [maxAddr, hAB, vmNext_some hord.notMem.1] at hmax
  -- the area stays below `TASK_SIZE` and below the next one
  have hroom : addr + newLen ≤ taskSize ∧ ∀ b ∈ B, addr + newLen ≤ (mm.vma b).vmStart := by
    cases B with
    | nil => exact ⟨by simp only at hmax; omega, by simp⟩
    | cons next B =>
      simp only at hmax
      have hnext := ordered_cons.mp (ordered_cons.mp (ordered_append.mp hord).2.1).2.1
      have hend := (h.whole next (by simp [hAB])).2.2
      refine ⟨by omega, forall_mem_cons.mpr ⟨by omega, fun b hb => ?_⟩⟩
      have := hnext.2.2 b hb
      omega
  have hgrown : ({ mm.vma vma with vmEnd := addr + newLen } : VmArea).Whole :=
    ⟨hwhole.1, by simp [Nat.add_mod, haddr, hnew], hroom.1⟩
  have hpages : ({ mm.vma vma with vmEnd := addr + newLen } : VmArea).pages =
      (mm.vma vma).pages + (newLen - oldLen : ℕ) / (pageSize : ℤ) := by
    obtain ⟨h1, h2, -⟩ := hwhole
    simp only [pages, pageSize] at *
    omega
  have hb := (h.replace hAB hgrown (by simp only; omega) hA hroom.2).charge (mm.vma vma).locked
    ((newLen - oldLen : ℕ) / (pageSize : ℤ))
  refine hb.congr (by rw [hpages]; ring) ?_
  rw [lockedPages, lockedPages, hpages,
    locked_congr (b := mm.vma vma) (a := { mm.vma vma with vmEnd := addr + newLen }) rfl]
  cases (mm.vma vma).locked <;> simp

/-- What `sys_mremap` has done before it moves an area. -/
def MremapPlan.Books (k l : ℤ) : MremapPlan → Prop
  | .done _ mm => mm.Books k l
  | .move mm _ _ newLen => mm.Books k l ∧ newLen % pageSize = 0 ∧ 0 < newLen

theorem mremapPlan_books (h : mm.Books k l) (env : MremapEnv) (addr oldLen newLen : ℕ)
    (flags : BitVec 32) : (mremapPlan mm env addr oldLen newLen flags).Books k l := by
  rw [mremapPlan]
  split
  · exact h
  next haddr =>
  dsimp only
  have hnew := pageAlign_mod newLen
  split
  · exact h.doMunmap _ _ _
  next hlt =>
  have hfind := h.findVma addr
  rcases hp : findVma mm addr with ⟨o, mm1⟩
  rw [hp] at hfind
  cases o with
  | none => exact hfind
  | some vma =>
    obtain ⟨-, hmem, habove⟩ := h.found hp
    simp only at hfind ⊢
    split
    · exact hfind
    next hstart =>
    split
    · exact hfind
    split
    · exact hfind
    split
    · exact hfind
    split
    · exact hfind
    split
    · next hfit =>
      have hgrow := hfind.grow hmem (not_lt.mp hstart) (not_not.mp haddr) hnew (not_le.mp hlt)
        hfit.1 habove hfit.2
      split
      · exact hgrow.makePagesPresent _
      · exact hgrow
    split
    · exact ⟨hfind, hnew, by omega⟩
    · exact hfind

theorem Mm.Books.sysMremap (h : mm.Books k l) {flags : BitVec 32}
    (hread : (Call.mremap env addr oldLen newLen flags).misread mm = false) :
    (sysMremap mm env addr oldLen newLen flags).2.Books k l := by
  have hplan := mremapPlan_books h env addr oldLen newLen flags
  rw [Vma.sysMremap]
  rw [Call.misread] at hread
  rcases hp : mremapPlan mm env addr oldLen newLen flags with ⟨ret, mm1⟩ | ⟨mm1, vma, oldLen', newLen'⟩
  · rw [hp] at hplan
    exact hplan
  · rw [hp] at hplan hread
    obtain ⟨hb, hlen, hpos⟩ := hplan
    refine hb.moveVma hlen hpos fun n newVma mm' hin hfreed => ?_
    simpa [hin, hfreed] using hread

end Move

/-! ### Runs -/

section Runs

/-- The call does not misread the lock bit of a freed structure. -/
def readsLockBit (mm : Mm) (c : Call) : Bool := !c.misread mm

theorem step_books {mm mm' : Mm} {c : Call} {k l : ℤ} (h : mm.Books k l)
    (hc : readsLockBit mm c = true) (hs : step mm c = some mm') : mm'.Books k l := by
  cases hs
  cases c with
  | mmap env file addr len prot flags off => exact h.doMmap env file addr len prot flags off
  | munmap alloc addr len => exact h.doMunmap alloc addr len
  | mprotect alloc start len prot => exact h.sysMprotect alloc start len prot
  | mlock capable withinLimits alloc start len on =>
    exact h.sysMlock alloc capable withinLimits start len on
  | mremap env addr oldLen newLen flags => exact h.sysMremap (by simpa [readsLockBit] using hc)
  | brk env rlimData addr => exact h.sysBrk env rlimData addr

/-- **The bookkeeping of the areas.** Every run of the calls, with any failures of allocations, in which no `move_vma`
misreads the lock bit of the structure its merge has freed, leaves the list sorted and disjoint, the tree absent or an AVL
tree of the listed areas, and `map_count`, `total_vm` and `locked_vm` exact. -/
theorem vmaBooks_of_readsLockBit {mm mm' : Mm} (h : mm.Books 0 0)
    (hr : ReachesBy step (fun mm c => readsLockBit mm c = true) mm mm') :
    Ordered mm'.vma mm'.mmap ∧ TreeOk mm'.mmapAvl mm'.mmap ∧ mm'.mapCount = mm'.mmap.length ∧
      mm'.totalVm = (mm'.areas.map (·.pages)).sum ∧
      mm'.lockedVm = (mm'.areas.map (·.lockedPages)).sum := by
  have hb : mm'.Books 0 0 := hr.invariant h fun _ _ _ h hc hs => step_books h hc hs
  have htotal := hb.totalVm
  have hlocked := hb.lockedVm
  rw [add_zero] at htotal hlocked
  exact ⟨hb.wellFormed.ordered, hb.wellFormed.tree, hb.mapCount, htotal, hlocked⟩

instance (mm : Mm) (k l : ℤ) : Decidable (mm.Books k l) :=
  decidable_of_iff (mm.WellFormed ∧ (∀ i ∈ mm.mmapCache, i ∈ mm.mmap) ∧
      (∀ i ∈ mm.mmap, (mm.vma i).Whole) ∧ mm.mapCount = mm.mmap.length ∧
      mm.totalVm + k = (mm.areas.map (·.pages)).sum ∧
      mm.lockedVm + l = (mm.areas.map (·.lockedPages)).sum)
    ⟨fun ⟨h1, h2, h3, h4, h5, h6⟩ => ⟨h1, h2, h3, h4, h5, h6⟩,
      fun ⟨h1, h2, h3, h4, h5, h6⟩ => ⟨h1, h2, h3, h4, h5, h6⟩⟩

/-- Two locked areas of a page with an area between them that is not locked. -/
def lockedPair : Mm := .ofAreas
  [⟨0x1000, 0x2000, 7, 0x2077, none, 0, none, 0⟩, ⟨0x2000, 0x3000, 7, 0x77, none, 0, none, 0⟩,
    ⟨0x3000, 0x4000, 7, 0x2077, none, 0, none, 0⟩]

/-- The first area of `lockedPair` grows to two pages.  They fit behind the last area only, with which
they are merged; the freed structure then holds the flags `flags`. -/
def growFirst (flags : BitVec 32) : Call :=
  .mremap { rlimMemlock := 0x10000000, rlimAs := 0x10000000, vmEnoughMemory := true, allocVma := true,
            allocExtra := true, movePageTables := true, stale := ⟨0, 0, 0, flags, none, 0, none, 0⟩ }
    0x1000 0x1000 0x2000 MREMAP_MAYMOVE

theorem vmaBooks_of_readsLockBit_grow : ∃ mm' : Mm, mm'.mmap.length = 2 ∧
    mm'.lockedVm = 3 ∧ mm'.lockedVm = (mm'.areas.map (·.lockedPages)).sum := by
  obtain ⟨mm', hr, hlen, hlocked⟩ : ∃ mm', ReachesBy step (fun mm c => readsLockBit mm c = true) lockedPair mm' ∧
    mm'.mmap.length = 2 ∧ mm'.lockedVm = 3 := ReachesBy.exists_of_exec [growFirst 0x2077] (by decide)
  exact ⟨mm', hlen, hlocked, (vmaBooks_of_readsLockBit (by decide) hr).2.2.2.2⟩

/-- **Locked pages that are not counted.** `move_vma` reads the structure that `merge_segments` freed as not locked: of three
locked pages one is counted. -/
theorem growFirst_loses_locked : lockedPair.Books 0 0 ∧
    ∃ mm', Reaches step lockedPair mm' ∧ mm'.lockedVm = 1 ∧ (mm'.areas.map (·.lockedPages)).sum = 3 := by
  refine ⟨by decide, (growFirst 0x77).run lockedPair, ?_, by decide, by decide⟩
  exact (ReachesBy.refl _).tail trivial rfl

end Runs

end I370Linux.Vma
