import I370Linux.VmaInvariant

/-! # `do_munmap`

The model of `unmap_fixup`, `free_pgtables` and `do_munmap` of `mm/mmap.c`, and its refinement of
deletion on the address map.

The page tables themselves are not modelled: `free_pgtables` gives the page-directory slots it hands
to `clear_page_tables`.  What `do_munmap` does to the areas is one operation on each of them, `cut`
(`doMunmap_spec`). -/

namespace I370Linux.Vma

open MmapAvl MmapAvl.AvlTree Function List

abbrev pgdirSize : ℕ := 2 ^ 20

inductive Errno where
  | EINVAL | ENOMEM | EAGAIN | EACCES | ENODEV | ETXTBSY | EFAULT | EPERM
deriving DecidableEq, Repr

/-! ### The functions -/

/-- The part of an area below `addr`. -/
def VmArea.headTo (a : VmArea) (addr : ℕ) : VmArea := { a with vmEnd := addr }

/-- The part of an area from `addr` on, with its offset. -/
def VmArea.tailFrom (a : VmArea) (addr : ℕ) : VmArea :=
  { a with vmStart := addr, vmOffset := a.vmOffset + BitVec.ofNat 32 (addr - a.vmStart) }

/-- Count `n` more pages in `total_vm` and, for a locked area, in `locked_vm`. -/
def Mm.charge (mm : Mm) (locked : Bool) (n : ℤ) : Mm :=
  { mm with
    totalVm := mm.totalVm + n
    lockedVm := mm.lockedVm + if locked then n else 0 }

/-- `unmap_fixup`, with what is left of `*extra`. -/
def unmapFixup (mm : Mm) (area addr len : ℕ) (extra : Option ℕ) : Mm × Option ℕ :=
  let a := mm.vma area
  let fin := addr + len
  let mm := mm.charge a.locked (-(len / pageSize))
  if addr = a.vmStart ∧ fin = a.vmEnd then (mm, extra)
  else if fin = a.vmEnd then
    (insertVmStruct (mm.setVma area (a.headTo addr)) area, extra)
  else if addr = a.vmStart then
    (insertVmStruct (mm.setVma area (a.tailFrom fin)) area, extra)
  else
    match extra with
    | none => (mm, none) -- the source would write through a null pointer here
    | some mpnt =>
      let mm := (mm.setVma mpnt (a.tailFrom fin)).setVma area (a.headTo addr)
      (insertVmStruct (insertVmStruct mm mpnt) area, none)

/-- The slots handed to `clear_page_tables`. -/
def slots (first last : ℕ) : List ℕ :=
  List.range' (first / pgdirSize) (last / pgdirSize - first / pgdirSize)

/-- The loop of `free_pgtables`, from `prev` with the areas behind it. -/
def freePgtablesFrom (v : ℕ → VmArea) (start first last : ℕ) : ℕ → List ℕ → List ℕ
  | prev, [] =>
    slots (if first < (v prev).vmEnd then (v prev).vmEnd + pgdirSize - 1 else first) last
  | prev, next :: rest =>
    if (v next).vmStart < start then freePgtablesFrom v start first last next rest
    else slots (if first < (v prev).vmEnd then (v prev).vmEnd + pgdirSize - 1 else first)
      (min last (v next).vmStart)

/-- `free_pgtables`: the slots whose page tables are freed. -/
def freePgtables (mm : Mm) (prev : Option ℕ) (start fin : ℕ) : List ℕ :=
  let first := start / pgdirSize * pgdirSize
  let last := (fin + pgdirSize - 1) / pgdirSize * pgdirSize
  match prev, mm.mmap with
  | none, [] => slots first last
  | none, p :: rest =>
    if start < (mm.vma p).vmEnd then slots first (min last (mm.vma p).vmEnd)
    else freePgtablesFrom mm.vma start first last p rest
  | some p, l => freePgtablesFrom mm.vma start first last p (vmNext l (some p))

/-- The first loop of `do_munmap`, along the areas from `mpnt` on. -/
def unlinkLoop (fin : ℕ) : Mm → List ℕ → List ℕ → Mm × List ℕ
  | mm, free, [] => (mm, free)
  | mm, free, mpnt :: chain =>
    if (mm.vma mpnt).vmStart < fin then unlinkLoop fin (unlink mm mpnt) (mpnt :: free) chain
    else (mm, free)

/-- The body of the second loop of `do_munmap`. -/
def releaseArea (addr fin : ℕ) (s : Mm × Option ℕ) (mpnt : ℕ) : Mm × Option ℕ :=
  let (mm, extra) := s
  let st := max addr (mm.vma mpnt).vmStart
  let fin := min fin (mm.vma mpnt).vmEnd
  unmapFixup { mm with mapCount := mm.mapCount - 1 } mpnt st (fin - st) extra

/-- What a call of `do_munmap` returns, the address space it leaves and the slots it clears. -/
structure Munmap where
  error : Option Errno
  mm : Mm
  cleared : List ℕ

/-- `do_munmap`; `alloc` tells whether the allocation of `extra` succeeds. -/
def doMunmap (mm : Mm) (alloc : Bool) (addr len : ℕ) : Munmap :=
  if addr % pageSize ≠ 0 ∨ addr > taskSize ∨ len > taskSize - addr then ⟨some .EINVAL, mm, []⟩
  else
    let len := pageAlign len
    if len = 0 then ⟨none, mm, []⟩
    else
      match findVmaPrev mm addr with
      | (none, _) => ⟨none, mm, []⟩
      | (some mpnt, prev) =>
        if addr + len ≤ (mm.vma mpnt).vmStart then ⟨none, mm, []⟩
        else if ((mm.vma mpnt).vmStart < addr ∧ addr + len < (mm.vma mpnt).vmEnd) ∧
            maxMapCount ≤ mm.mapCount then ⟨some .ENOMEM, mm, []⟩
        else if !alloc then ⟨some .ENOMEM, mm, []⟩
        else
          let extra := mm.kmemCacheAlloc
          let (mm, free) := unlinkLoop (addr + len) mm [] (vmNext mm.mmap prev)
          let (mm, _) := free.foldl (releaseArea addr (addr + len)) (mm, some extra)
          ⟨none, { mm with mmapCache := none }, freePgtables mm prev addr (addr + len)⟩

/-! ### The address map -/

structure VmAttr where
  vmFlags : BitVec 32
  vmPageProt : BitVec 32
  vmOps : Option ℕ
  vmFile : Option ℕ
  vmPte : ℕ
deriving DecidableEq, Repr

def VmArea.attr (a : VmArea) : VmAttr where
  vmFlags := a.vmFlags
  vmPageProt := a.vmPageProt
  vmOps := a.vmOps
  vmFile := a.vmFile
  vmPte := a.vmPte

def VmArea.offsetAt (a : VmArea) (x : ℕ) : BitVec 32 := a.vmOffset + BitVec.ofNat 32 (x - a.vmStart)

def addressMap (as : List VmArea) (x : ℕ) : Option (VmAttr × BitVec 32) :=
  (as.find? fun a => decide (a.Contains x)).map fun a => (a.attr, a.offsetAt x)

/-- What is left of an area when `[addr, fin)` is unmapped. -/
def cut (addr fin : ℕ) (a : VmArea) : List VmArea :=
  if a.vmStart < fin ∧ addr < a.vmEnd then
    (if a.vmStart < addr then [a.headTo addr] else []) ++
    (if fin < a.vmEnd then [a.tailFrom fin] else [])
  else [a]

/-- The pages of an area inside `[addr, fin)`. -/
def clipPages (addr fin : ℕ) (a : VmArea) : ℤ :=
  (min fin a.vmEnd - max addr a.vmStart : ℕ) / (pageSize : ℤ)

variable {addr fin : ℕ} {a : VmArea}

theorem cut_of_disjoint (h : a.vmEnd ≤ addr ∨ fin ≤ a.vmStart) : cut addr fin a = [a] := if_neg (by omega)

theorem mem_cut {b : VmArea} (h : b ∈ cut addr fin a) :
    a.vmStart ≤ b.vmStart ∧ b.vmEnd ≤ a.vmEnd ∧ b.attr = a.attr ∧ (b.vmEnd ≤ addr ∨ fin ≤ b.vmStart) := by
  rw [cut] at h
  split at h
  · next ho =>
    obtain h | h := mem_append.mp h
    · split at h
      · obtain rfl := mem_singleton.mp h
        exact ⟨le_rfl, ho.2.le, rfl, .inl le_rfl⟩
      · simp at h
    · split at h
      · obtain rfl := mem_singleton.mp h
        exact ⟨ho.1.le, le_rfl, rfl, .inr le_rfl⟩
      · simp at h
  · next ho =>
    obtain rfl := mem_singleton.mp h
    exact ⟨le_rfl, le_rfl, rfl, by omega⟩

theorem addressMap_append (as bs : List VmArea) (x : ℕ) :
    addressMap (as ++ bs) x = (addressMap as x).or (addressMap bs x) := by
  rw [addressMap, List.find?_append, addressMap, addressMap]
  cases as.find? fun a => decide (a.Contains x) <;> simp

theorem addressMap_singleton (a : VmArea) (x : ℕ) : addressMap [a] x =
    if a.vmStart ≤ x ∧ x < a.vmEnd then some (a.attr, a.offsetAt x) else none := by
  show _ = if a.Contains x then some (a.attr, a.offsetAt x) else none
  by_cases h : a.Contains x <;> simp [addressMap, h]

theorem offsetAt_tailFrom {x : ℕ} (h1 : a.vmStart ≤ fin) (h2 : fin ≤ x) :
    (a.tailFrom fin).offsetAt x = a.offsetAt x := by
  show a.vmOffset + BitVec.ofNat 32 (fin - a.vmStart) + BitVec.ofNat 32 (x - fin) = a.offsetAt x
  rw [VmArea.offsetAt, BitVec.add_assoc, ← BitVec.ofNat_add]
  congr 2
  omega

theorem addressMap_cut (hlt : addr < fin) (a : VmArea) (x : ℕ) : addressMap (cut addr fin a) x =
      if addr ≤ x ∧ x < fin then none else addressMap [a] x := by
  have hhead : addressMap (if a.vmStart < addr then [a.headTo addr] else []) x =
      if a.vmStart ≤ x ∧ x < addr then some (a.attr, a.offsetAt x) else none := by
    split
    · exact addressMap_singleton _ x
    · rw [if_neg (by omega)]
      rfl
  have htail : a.vmStart < fin → addressMap (if fin < a.vmEnd then [a.tailFrom fin] else []) x =
      if fin ≤ x ∧ x < a.vmEnd then some (a.attr, a.offsetAt x) else none := fun hs => by
    split
    · rw [addressMap_singleton]
      show (if fin ≤ x ∧ x < a.vmEnd then some (a.attr, (a.tailFrom fin).offsetAt x) else none) = _
      split
      · next h => rw [offsetAt_tailFrom hs.le h.1]
      · rfl
    · rw [if_neg (by omega)]
      rfl
  rw [cut, addressMap_singleton]
  split
  · next ho =>
    rw [addressMap_append, hhead, htail ho.1]
    split_ifs <;> first | rfl | (exfalso; omega)
  · next ho =>
    rw [addressMap_singleton]
    split_ifs <;> first | rfl | (exfalso; omega)

/-- **Cutting every area is deletion on the address map.** -/
theorem addressMap_flatMap_cut (hlt : addr < fin) (as : List VmArea) (x : ℕ) :
    addressMap (as.flatMap (cut addr fin)) x =
      if addr ≤ x ∧ x < fin then none else addressMap as x := by
  induction as with
  | nil => simp [addressMap]
  | cons a as ih =>
    rw [flatMap_cons, addressMap_append, ih, addressMap_cut hlt,
      show a :: as = [a] ++ as from rfl, addressMap_append]
    split <;> rfl

/-! ### The loops -/

section Loops

variable {mm : Mm}

variable {v : ℕ → VmArea} {e i x : ℕ} {A C P R S : List ℕ} {extra : Option ℕ}

theorem update_of_notMem {l : List ℕ} {j : ℕ} (a : VmArea) (hi : i ∉ l) (hj : j ∈ l) : update v i a j = v j :=
  update_of_ne (ne_of_mem_of_not_mem hj hi) _ _

theorem setVma_wellFormed (h : mm.WellFormed) (hi : i ∉ mm.mmap) (a : VmArea) : (mm.setVma i a).WellFormed :=
  ⟨h.ordered.congr fun _ hj => update_of_notMem a hi hj, h.tree⟩

theorem ordered_update {a : VmArea} (h : Ordered v (P ++ S)) (hi : i ∉ P ++ S) (hlt : a.vmStart < a.vmEnd)
    (hP : ∀ p ∈ P, (v p).vmEnd ≤ a.vmStart) (hS : ∀ s ∈ S, a.vmEnd ≤ (v s).vmStart) :
    Ordered (update v i a) (P ++ i :: S) := by
  have hne : ∀ j ∈ P ++ S, update v i a j = v j := fun j hj => update_of_notMem a hi hj
  refine ordered_insert.mpr ⟨h.congr hne, by simpa using hlt, fun p hp => ?_, fun s hs => ?_⟩
  · simpa [hne p (mem_append_left _ hp)] using hP p hp
  · simpa [hne s (mem_append_right _ hs)] using hS s hs

theorem unlinkLoop_spec (fin : ℕ) (B free : List ℕ) (h : mm.WellFormed) (hl : mm.mmap = A ++ B) :
    ∃ R C t, B = R ++ C ∧
      unlinkLoop fin mm free B = ({ mm with mmap := A ++ C, mmapAvl := t }, R.reverse ++ free) ∧
      TreeOk t (A ++ C) ∧ (∀ r ∈ R, (mm.vma r).vmStart < fin) ∧
      ∀ c ∈ C, fin ≤ (mm.vma c).vmStart := by
  induction B generalizing mm free with
  | nil =>
    refine ⟨[], [], mm.mmapAvl, rfl, ?_, hl ▸ h.tree, by simp, by simp⟩
    rw [unlinkLoop, ← hl]
    rfl
  | cons x B ih =>
    rw [unlinkLoop]
    split
    · next hx =>
      obtain ⟨t, hu, ht⟩ := unlink_spec h hl
      have ho : Ordered mm.vma (A ++ B) := (ordered_insert.mp (hl ▸ h.ordered)).1
      obtain ⟨R, C, t', hB, hloop, ht', hR, hC⟩ :=
        ih (x :: free) (show Mm.WellFormed { mm with mmap := A ++ B, mmapAvl := t } from ⟨ho, ht⟩) rfl
      refine ⟨x :: R, C, t', by rw [hB]; rfl, ?_, ht', by simpa using ⟨hx, hR⟩, hC⟩
      rw [hu, hloop]
      simp
    · next hx =>
      -- the list is sorted, so no later area starts below `fin` either
      have ho := (ordered_append.mp (hl ▸ h.ordered)).2.1
      obtain ⟨hlt, -, hB⟩ := ordered_cons.mp ho
      refine ⟨[], x :: B, mm.mmapAvl, rfl, by rw [← hl]; rfl, hl ▸ h.tree, by simp, ?_⟩
      intro c hc
      obtain rfl | hc := mem_cons.mp hc
      · omega
      · have := hB c hc
        omega

/-- The address space `mm'` after the areas `R`, which stood between `A` and `C`, were released:
what is left of them stands there, in their structures or in `extra`. -/
def Released (addr fin : ℕ) (mm : Mm) (A R C : List ℕ) (extra : ℕ) (mm' : Mm) : Prop :=
  ∃ (D : List ℕ) (v : ℕ → VmArea) (t : AvlTree ℕ),
    mm' = { mm with
      vma := v
      mmap := A ++ D ++ C
      mmapAvl := t
      mapCount := mm.mapCount - R.length + D.length
      totalVm := mm.totalVm - ((R.map mm.vma).map (clipPages addr fin)).sum
      lockedVm := mm.lockedVm -
        ((R.map mm.vma).map fun a => if a.locked then clipPages addr fin a else 0).sum } ∧
    Ordered v (A ++ D ++ C) ∧ TreeOk t (A ++ D ++ C) ∧
    D.map v = (R.map mm.vma).flatMap (cut addr fin) ∧
    (∀ j, j ∉ R → j ≠ extra → v j = mm.vma j) ∧
    ∀ j, j ≠ extra → (v j).vmFlags = (mm.vma j).vmFlags

/-- `unmap_fixup` behind its accounting, by the position of the area relative to `[addr, fin)`. -/
def putBack (mm : Mm) (x : ℕ) (a : VmArea) (addr fin : ℕ) (extra : Option ℕ) : Mm × Option ℕ :=
  if addr ≤ a.vmStart ∧ a.vmEnd ≤ fin then (mm, extra)
  else if a.vmEnd ≤ fin then (insertVmStruct (mm.setVma x (a.headTo addr)) x, extra)
  else if addr ≤ a.vmStart then (insertVmStruct (mm.setVma x (a.tailFrom fin)) x, extra)
  else
    match extra with
    | none => (mm, none)
    | some mpnt =>
      let mm := (mm.setVma mpnt (a.tailFrom fin)).setVma x (a.headTo addr)
      (insertVmStruct (insertVmStruct mm mpnt) x, none)

theorem releaseArea_eq (extra : Option ℕ) (hlt : addr < fin) (hx : (mm.vma x).vmStart < (mm.vma x).vmEnd)
    (ho : (mm.vma x).vmStart < fin ∧ addr < (mm.vma x).vmEnd) : releaseArea addr fin (mm, extra) x =
      putBack ({ mm with mapCount := mm.mapCount - 1 }.charge (mm.vma x).locked
        (-clipPages addr fin (mm.vma x))) x (mm.vma x) addr fin extra := by
  have hfin : max addr (mm.vma x).vmStart +
      (min fin (mm.vma x).vmEnd - max addr (mm.vma x).vmStart) = min fin (mm.vma x).vmEnd := by
    omega
  simp only [releaseArea, unmapFixup, hfin, clipPages, putBack]
  rcases le_or_gt addr (mm.vma x).vmStart with h1 | h1 <;> obtain h2 | h2 := le_or_gt (mm.vma x).vmEnd fin
  · rw [max_eq_right h1, min_eq_right h2, if_pos ⟨rfl, rfl⟩, if_pos ⟨h1, h2⟩]
  · rw [max_eq_right h1, min_eq_left h2.le, if_neg (by omega), if_neg (by omega), if_pos rfl,
      if_neg (by omega), if_neg (by omega), if_pos h1]
  · rw [max_eq_left h1.le, min_eq_right h2, if_neg (by omega), if_pos rfl, if_neg (by omega), if_pos h2]
  · rw [max_eq_left h1.le, min_eq_left h2.le, if_neg (by omega), if_neg (by omega),
      if_neg (by omega), if_neg (by omega), if_neg (by omega), if_neg (by omega)]

theorem insertVmStruct_setVma {b : VmArea} (h : mm.WellFormed)
    (hl : mm.mmap = P ++ S) (hx : x ∉ P ++ S) (hb : b.vmStart < b.vmEnd)
    (hP : ∀ p ∈ P, (mm.vma p).vmEnd ≤ b.vmStart) (hS : ∀ s ∈ S, b.vmEnd ≤ (mm.vma s).vmStart) :
    Ordered (update mm.vma x b) (P ++ x :: S) ∧
    ∃ t, insertVmStruct (mm.setVma x b) x =
        { mm with
          vma := update mm.vma x b
          mmap := P ++ x :: S
          mmapAvl := t
          mapCount := mm.mapCount + 1 } ∧
      TreeOk t (P ++ x :: S) := by
  have hord := ordered_update (hl ▸ h.ordered) hx hb hP hS
  exact ⟨hord, insertVmStruct_spec (setVma_wellFormed h (hl ▸ hx) b) hl hord⟩

/-- What is left of `x` stands between its neighbours. -/
def Left (addr fin : ℕ) (mm : Mm) (P S : List ℕ) (x : ℕ) (extra : Option ℕ) (mm' : Mm) : Prop :=
  ∃ (D : List ℕ) (v : ℕ → VmArea) (t : AvlTree ℕ),
    mm' = { mm with
      vma := v, mmap := P ++ D ++ S, mmapAvl := t, mapCount := mm.mapCount + D.length } ∧
    Ordered v (P ++ D ++ S) ∧ TreeOk t (P ++ D ++ S) ∧ D.map v = cut addr fin (mm.vma x) ∧
    (∀ j, j ≠ x → ((mm.vma x).vmStart < addr → fin < (mm.vma x).vmEnd → extra ≠ some j) →
      v j = mm.vma j) ∧
    (v x).vmFlags = (mm.vma x).vmFlags

theorem putBack_spec (h : mm.WellFormed)
    (hl : mm.mmap = P ++ S) (hx : Ordered mm.vma (P ++ x :: S)) (hlt : addr < fin)
    (ho : (mm.vma x).vmStart < fin ∧ addr < (mm.vma x).vmEnd)
    (hextra : (mm.vma x).vmStart < addr → fin < (mm.vma x).vmEnd → ∃ e, extra = some e ∧ e ∉ P ++ x :: S) :
    Left addr fin mm P S x extra (putBack mm x (mm.vma x) addr fin extra).1 := by
  obtain ⟨hPS, hxlt, hP, hS⟩ := ordered_insert.mp hx
  have hxPS : x ∉ P ++ S := by simpa using hx.notMem
  -- one part is left, and it keeps the structure
  have hkeep : ∀ b : VmArea, b.vmStart < b.vmEnd → (mm.vma x).vmStart ≤ b.vmStart →
      b.vmEnd ≤ (mm.vma x).vmEnd → cut addr fin (mm.vma x) = [b] →
      Left addr fin mm P S x extra (insertVmStruct (mm.setVma x b) x) := by
    intro b hb hb1 hb2 hcut
    obtain ⟨hord, t, hins, ht⟩ := insertVmStruct_setVma h hl hxPS hb
      (fun p hp => le_trans (hP p hp) hb1) fun s hs => le_trans hb2 (hS s hs)
    refine ⟨[x], update mm.vma x b, t, by simpa using hins, by simpa using hord,
      by simpa using ht, by simp [hcut], fun j hj _ => update_of_ne hj _ _, ?_⟩
    have hmem : b ∈ cut addr fin (mm.vma x) := by simp [hcut]
    rw [update_self]
    exact congrArg VmAttr.vmFlags (mem_cut hmem).2.2.1
  unfold putBack
  rcases le_or_gt addr (mm.vma x).vmStart with h1 | h1 <;> obtain h2 | h2 := le_or_gt (mm.vma x).vmEnd fin
  · rw [if_pos ⟨h1, h2⟩]
    refine ⟨[], mm.vma, mm.mmapAvl, by simp [← hl], by simpa using hPS,
      by simpa [hl] using h.tree, ?_, fun _ _ _ => rfl, rfl⟩
    rw [cut, if_pos ho, if_neg (by omega), if_neg (by omega)]
    rfl
  · rw [if_neg (by omega), if_neg (by omega), if_pos h1]
    refine hkeep _ h2 ho.1.le le_rfl ?_
    rw [cut, if_pos ho, if_neg (by omega), if_pos h2]
    rfl
  · rw [if_neg (by omega), if_pos h2]
    refine hkeep _ h1 le_rfl ho.2.le ?_
    rw [cut, if_pos ho, if_pos h1, if_neg (by omega)]
    rfl
  · -- a hole: the upper part goes into the spare structure and is linked in first
    obtain ⟨e, rfl, he⟩ := hextra h1 h2
    rw [if_neg (by omega), if_neg (by omega), if_neg (by omega)]
    obtain ⟨heP, hex, heS⟩ : e ∉ P ∧ e ≠ x ∧ e ∉ S := by simpa using he
    have hePS : e ∉ P ++ S := by simp [heP, heS]
    have hxeS : x ∉ P ++ e :: S := by simpa [hex.symm] using hxPS
    set w := update mm.vma e ((mm.vma x).tailFrom fin) with hw
    have hord1 : Ordered w (P ++ e :: S) := ordered_update hPS hePS h2
      (fun p hp => le_trans (hP p hp) ho.1.le) hS
    have hwP : ∀ p ∈ P, w p = mm.vma p := fun p hp => update_of_notMem _ heP hp
    have hwS : ∀ s ∈ S, w s = mm.vma s := fun s hs => update_of_notMem _ heS hs
    have hwe : w e = (mm.vma x).tailFrom fin := update_self ..
    have hord2 : Ordered (update w x ((mm.vma x).headTo addr)) (P ++ x :: e :: S) := by
      refine ordered_update hord1 hxeS h1 (fun p hp => by rw [hwP p hp]; exact hP p hp) ?_
      intro s hs
      obtain rfl | hs := mem_cons.mp hs
      · rw [hwe]
        exact hlt.le
      · rw [hwS s hs]
        exact le_trans ho.2.le (hS s hs)
    have hwf : ((mm.setVma e ((mm.vma x).tailFrom fin)).setVma x ((mm.vma x).headTo addr)).WellFormed :=
      setVma_wellFormed (setVma_wellFormed h (hl ▸ hePS) _) (show x ∉ mm.mmap from hl ▸ hxPS) _
    obtain ⟨t1, hins1, ht1⟩ := insertVmStruct_spec hwf hl (ordered_insert.mp hord2).1
    obtain ⟨t2, hins2, ht2⟩ := insertVmStruct_spec (i := x) (A := P) (B := e :: S)
      (show (insertVmStruct ((mm.setVma e ((mm.vma x).tailFrom fin)).setVma x
        ((mm.vma x).headTo addr)) e).WellFormed by
        rw [hins1]; exact ⟨(ordered_insert.mp hord2).1, ht1⟩) (by rw [hins1])
      (by rw [hins1]; exact hord2)
    refine ⟨[x, e], update w x ((mm.vma x).headTo addr), t2, ?_, by simpa using hord2,
      by simpa using ht2, ?_, ?_, by rw [update_self]; rfl⟩
    · show insertVmStruct (insertVmStruct _ e) x = _
      rw [hins2, hins1]
      simp [Mm.setVma, hw, add_assoc]
    · rw [cut, if_pos ho, if_pos h1, if_pos h2]
      simp [update_of_ne hex, hwe]
    · intro j hj hje
      rw [update_of_ne hj, hw, update_of_ne (by rintro rfl; exact hje h1 h2 rfl)]

/-- When what is left of `R` is back, the area before `R` still fits in before it. -/
theorem ordered_before_rest {D : List ℕ}
    (hord : Ordered mm.vma (A ++ x :: (R ++ C))) (he : e ∉ A ++ x :: (R ++ C))
    (hov : Ordered v (A ++ D ++ C)) (hrest : D.map v = (R.map mm.vma).flatMap (cut addr fin))
    (hframe : ∀ j, j ∉ R → j ≠ e → v j = mm.vma j) :
    v x = mm.vma x ∧ Ordered v (A ++ x :: (D ++ C)) := by
  obtain ⟨hARC, hxlt, hA, hRC⟩ := ordered_insert.mp hord
  have hn := hord.nodup
  have hsame : ∀ j ∈ A ++ x :: (R ++ C), j ∉ R → v j = mm.vma j := fun j hj hjR =>
    hframe j hjR (ne_of_mem_of_not_mem hj he)
  have hvx : v x = mm.vma x := hsame x (by simp) fun hx => hord.notMem.2 (mem_append_left _ hx)
  refine ⟨hvx, ordered_insert.mpr ⟨by rw [← append_assoc]; exact hov, by rw [hvx]; exact hxlt,
    fun a ha => ?_, fun b hb => ?_⟩⟩
  · rw [hvx, hsame a (by simp [ha]) fun haR => ?_]
    · exact hA a ha
    · exact (nodup_append.mp hn).2.2 a ha a (by simp [haR]) rfl
  · rw [hvx]
    obtain hb | hb := mem_append.mp hb
    · obtain ⟨a, ha, hba⟩ := mem_flatMap.mp (hrest ▸ mem_map_of_mem hb)
      obtain ⟨r, hr, rfl⟩ := mem_map.mp ha
      exact le_trans (hRC r (mem_append_left _ hr)) (mem_cut hba).1
    · rw [hsame b (by simp [hb]) fun hbR => ?_]
      · exact hRC b (mem_append_right _ hb)
      · have hRC' := (nodup_cons.mp (nodup_append.mp hn).2.1).2
        exact (nodup_append.mp hRC').2.2 b hbR b hb rfl

theorem Released.cons {mm1 : Mm}
    (h : Released addr fin mm A R C e mm1) (hord : Ordered mm.vma (A ++ x :: (R ++ C)))
    (he : e ∉ A ++ x :: (R ++ C)) (hlt : addr < fin)
    (ho : ∀ r ∈ x :: R, (mm.vma r).vmStart < fin ∧ addr < (mm.vma r).vmEnd)
    (hextra : R = [] → extra = some e) :
    Released addr fin mm A (x :: R) C e (releaseArea addr fin (mm1, extra) x).1 := by
  obtain ⟨D, v, t, hmm, hov, ht, hrest, hframe, hflags⟩ := h
  obtain ⟨hvx, hord1⟩ := ordered_before_rest hord he hov hrest hframe
  have hox := ho x (mem_cons_self ..)
  -- an area with others behind it in the range reaches no higher than the range
  have hhole : (mm.vma x).vmStart < addr → fin < (mm.vma x).vmEnd → R = [] := by
    intro _ h2
    refine eq_nil_iff_forall_not_mem.mpr fun r hr => ?_
    have h3 := (ordered_insert.mp hord).2.2.2 r (mem_append_left _ hr)
    have h4 := (ho r (mem_cons_of_mem _ hr)).1
    omega
  have hspare : (v x).vmStart < addr → fin < (v x).vmEnd → ∃ e, extra = some e ∧ e ∉ A ++ x :: (D ++ C) := by
    rw [hvx]
    intro h1 h2
    obtain rfl := hhole h1 h2
    exact ⟨e, hextra rfl, by simpa [map_eq_nil_iff.mp hrest] using he⟩
  have hv1 : mm1.vma = v := by rw [hmm]
  have hl1 : mm1.mmap = A ++ (D ++ C) := by rw [hmm, ← append_assoc]
  have hwf1 : mm1.WellFormed := ⟨by rw [hv1, hl1, ← append_assoc]; exact hov,
    by rw [hl1, ← append_assoc]; simpa [hmm] using ht⟩
  rw [← hv1] at hord1 hvx hspare
  rw [releaseArea_eq extra hlt (hord1.1 x (by simp)) (by rw [hvx]; exact hox)]
  have hwfc : ({ mm1 with mapCount := mm1.mapCount - 1 }.charge (mm1.vma x).locked
      (-clipPages addr fin (mm1.vma x))).WellFormed := ⟨hwf1.ordered, hwf1.tree⟩
  obtain ⟨D', v', t', hput, hov', ht', hrest', hframe', hflags'⟩ := putBack_spec hwfc hl1 hord1 hlt
      (show (mm1.vma x).vmStart < fin ∧ addr < (mm1.vma x).vmEnd by rw [hvx]; exact hox) hspare
  change ∀ j, j ≠ x → ((mm1.vma x).vmStart < addr → fin < (mm1.vma x).vmEnd → _) → v' j = mm1.vma j at hframe'
  rw [hvx, hv1] at hframe'
  have hD : ∀ d ∈ D, v' d = v d := by
    intro d hd
    refine hframe' d ?_ fun h1 h2 => ?_
    · rintro rfl
      exact hord1.notMem.2 (mem_append_left _ hd)
    · obtain rfl := hhole h1 h2
      simp [map_eq_nil_iff.mp hrest] at hd
  have hje' : ∀ j, j ≠ e → (mm.vma x).vmStart < addr → fin < (mm.vma x).vmEnd → extra ≠ some j := by
    intro j hje h1 h2
    rw [hextra (hhole h1 h2)]
    exact fun h => hje (Option.some.inj h).symm
  refine ⟨D' ++ D, v', t', ?_, by simpa using hov', by simpa using ht', ?_, ?_, ?_⟩
  · refine hput.trans ?_
    rw [hvx]
    simp only [Mm.charge, hmm, map_cons, sum_cons, length_cons,
      length_append, append_assoc, Mm.mk.injEq, true_and, and_true]
    refine ⟨by omega, by omega, ?_⟩
    split <;> omega
  · rw [map_append, hrest', map_congr_left hD, hrest]
    show cut addr fin (mm1.vma x) ++ _ = _
    rw [hvx, map_cons, flatMap_cons]
  · intro j hj hje
    obtain ⟨hjx, hjR⟩ : j ≠ x ∧ j ∉ R := by simpa using hj
    rw [hframe' j hjx (hje' j hje), hframe j hjR hje]
  · intro j hje
    obtain rfl | hjx := eq_or_ne j x
    · exact hflags'.trans (congrArg VmArea.vmFlags hvx)
    · rw [hframe' j hjx (hje' j hje), hflags j hje]

/-- **The second loop puts back what is left of every area**, from the last one down. -/
theorem releaseLoop_spec (R : List ℕ) (h : mm.WellFormed)
    (hl : mm.mmap = A ++ C) (hord : Ordered mm.vma (A ++ (R ++ C))) (hlt : addr < fin)
    (ho : ∀ r ∈ R, (mm.vma r).vmStart < fin ∧ addr < (mm.vma r).vmEnd) (he : e ∉ A ++ (R ++ C)) :
    Released addr fin mm A R C e (R.reverse.foldl (releaseArea addr fin) (mm, some e)).1 := by
  induction R with
  | nil =>
    exact ⟨[], mm.vma, mm.mmapAvl, by simp [← hl], by simpa using hord, by simpa [hl] using h.tree,
      by simp, fun _ _ _ => rfl, fun _ _ => rfl⟩
  | cons x R ih =>
    have hrel := ih (ordered_insert.mp hord).1 (fun r hr => ho r (mem_cons_of_mem _ hr))
      fun he' => he (by rcases mem_append.mp he' with h | h <;> simp_all)
    rw [reverse_cons, foldl_append, foldl_cons, foldl_nil]
    exact hrel.cons hord he hlt ho (by rintro rfl; rfl)

end Loops

/-! ### Refinement -/

section Refinement

variable {mm : Mm}

theorem flatMap_cut_of_disjoint {addr fin : ℕ} {as : List VmArea}
    (h : ∀ a ∈ as, a.vmEnd ≤ addr ∨ fin ≤ a.vmStart) : as.flatMap (cut addr fin) = as := by
  rw [flatMap_congr fun a ha => cut_of_disjoint (h a ha)]
  simp

section

variable {alloc : Bool} {addr len : ℕ} (h : mm.WellFormed) (hok : (doMunmap mm alloc addr len).error = none)
include h hok

/-- **What a successful `do_munmap` does**: nothing, or it cuts every area. -/
theorem doMunmap_spec :
    ((doMunmap mm alloc addr len).mm = mm ∧ (doMunmap mm alloc addr len).cleared = [] ∧
      (pageAlign len = 0 ∨ ∀ a ∈ mm.areas, a.vmEnd ≤ addr ∨ addr + pageAlign len ≤ a.vmStart)) ∨
    ∃ A R C e mm', 0 < pageAlign len ∧ R ≠ [] ∧ mm.mmap = A ++ (R ++ C) ∧
      (∀ a ∈ A, (mm.vma a).vmEnd ≤ addr) ∧
      (∀ r ∈ R, (mm.vma r).vmStart < addr + pageAlign len ∧ addr < (mm.vma r).vmEnd) ∧
      (∀ c ∈ C, addr + pageAlign len ≤ (mm.vma c).vmStart) ∧ e ∉ mm.mmap ∧
      Released addr (addr + pageAlign len) mm A R C e mm' ∧
      (doMunmap mm alloc addr len).mm = { mm' with mmapCache := none } ∧
      (doMunmap mm alloc addr len).cleared = freePgtables mm' A.getLast? addr (addr + pageAlign len) := by
  generalize hr : doMunmap mm alloc addr len = r at hok ⊢
  rw [doMunmap] at hr
  split at hr
  · subst hr
    cases hok
  dsimp only at hr
  split at hr
  · next h0 =>
    subst hr
    exact .inl ⟨rfl, rfl, .inl h0⟩
  obtain ⟨hall, hnone⟩ | ⟨A, x, B, hf, hprev⟩ := findVmaPrev_spec addr h
  · rcases hp : findVmaPrev mm addr with ⟨o, p⟩
    rw [hp] at hnone hr
    obtain rfl : o = none := hnone
    subst hr
    exact .inl ⟨rfl, rfl, .inr (by simpa [Mm.areas] using fun i hi => .inl (hall i hi))⟩
  rw [hprev] at hr
  dsimp only at hr
  have hord := hf.list ▸ h.ordered
  split at hr
  · next hx =>
    subst hr
    refine .inl ⟨rfl, rfl, .inr ?_⟩
    simp only [Mm.areas, forall_mem_map]
    intro i hi
    rw [hf.list] at hi
    obtain hi | hi := mem_append.mp hi
    · exact .inl (hf.below i hi)
    obtain ⟨hxlt, -, hB⟩ := ordered_cons.mp (ordered_append.mp hord).2.1
    obtain rfl | hi := mem_cons.mp hi
    · exact .inr hx
    · have := hB i hi
      exact .inr (by omega)
  split at hr
  · subst hr
    cases hok
  split at hr
  · subst hr
    cases hok
  next h0 hx _ _ =>
  rw [hf.list] at hr
  rw [vmNext_getLast? hord.nodup] at hr
  obtain ⟨R, C, t, hB, hloop, ht, hR, hC⟩ := unlinkLoop_spec (addr + pageAlign len) (x :: B) [] h hf.list
  rw [hB] at hord
  have hR0 : R ≠ [] := by
    rintro rfl
    exact hx (hC x (by rw [← show x :: B = C from hB]; exact mem_cons_self ..))
  have hover : ∀ r ∈ R, addr < (mm.vma r).vmEnd := by
    obtain ⟨y, R', rfl⟩ := exists_cons_of_ne_nil hR0
    obtain ⟨rfl, -⟩ : x = y ∧ B = R' ++ C := by simpa using hB
    intro r hr
    obtain rfl | hr := mem_cons.mp hr
    · exact hf.above
    · have hxr := (ordered_cons.mp (ordered_append.mp hord).2.1).2.2 r (mem_append_left _ hr)
      have hrlt := hord.1 r (by simp [hr])
      have := hf.above
      omega
  have he : mm.kmemCacheAlloc ∉ mm.mmap := kmemCacheAlloc_notMem mm 0
  have hwf : Mm.WellFormed { mm with mmap := A ++ C, mmapAvl := t } := ⟨hord.sublist (by simp), ht⟩
  have hrel := releaseLoop_spec (e := mm.kmemCacheAlloc) R hwf rfl hord
    (show addr < addr + pageAlign len by omega) (fun r hr => ⟨hR r hr, hover r hr⟩)
    (by rw [← hB, ← hf.list]; exact he)
  rw [hloop, append_nil] at hr
  subst hr
  exact .inr ⟨A, R, C, mm.kmemCacheAlloc, _, by omega, hR0, by rw [← hB, hf.list], hf.below,
    fun r hr => ⟨hR r hr, hover r hr⟩, hC, he, hrel, rfl, rfl⟩

theorem doMunmap_areas (hlen : 0 < pageAlign len) :
    (doMunmap mm alloc addr len).mm.areas = mm.areas.flatMap (cut addr (addr + pageAlign len)) := by
  rcases doMunmap_spec h hok with
    ⟨hmm, -, hall⟩ | ⟨A, R, C, e, mm', -, -, hl, hA, hR, hC, he, hrel, hmm, -⟩
  · rw [hmm, flatMap_cut_of_disjoint (hall.resolve_left hlen.ne')]
  · obtain ⟨D, v, t, rfl, -, -, hrest, hframe, -⟩ := hrel
    have hord := hl ▸ h.ordered
    have hn := hord.nodup
    have hsame : ∀ j ∈ mm.mmap, j ∉ R → v j = mm.vma j := fun j hj hjR =>
      hframe j hjR (ne_of_mem_of_not_mem hj he)
    have hAv : A.map v = A.map mm.vma := map_congr_left fun a ha =>
      hsame a (by simp [hl, ha]) fun haR =>
        (nodup_append.mp hn).2.2 a ha a (by simp [haR]) rfl
    have hCv : C.map v = C.map mm.vma := map_congr_left fun c hc =>
      hsame c (by simp [hl, hc]) fun hcR =>
        (nodup_append.mp (nodup_append.mp hn).2.1).2.2 c hcR c hc rfl
    have hAcut : (A.map mm.vma).flatMap (cut addr (addr + pageAlign len)) = A.map mm.vma :=
      flatMap_cut_of_disjoint (by simpa using fun a ha => .inl (hA a ha))
    have hCcut : (C.map mm.vma).flatMap (cut addr (addr + pageAlign len)) = C.map mm.vma :=
      flatMap_cut_of_disjoint (by simpa using fun c hc => .inr (hC c hc))
    rw [hmm]
    show (A ++ D ++ C).map v = (mm.mmap.map mm.vma).flatMap _
    rw [hl, map_append, map_append, map_append, map_append,
      flatMap_append, flatMap_append, hAcut, hCcut, ← hrest, hAv, hCv, append_assoc]

theorem doMunmap_wellFormed : (doMunmap mm alloc addr len).mm.WellFormed := by
  rcases doMunmap_spec h hok with
    ⟨hmm, -, -⟩ | ⟨A, R, C, e, mm', -, -, -, -, -, -, -, hrel, hmm, -⟩
  · rw [hmm]
    exact h
  · obtain ⟨D, v, t, rfl, hord, ht, -, -, -⟩ := hrel
    rw [hmm]
    exact ⟨hord, ht⟩

end

theorem doMunmap_error (mm : Mm) (alloc : Bool) (addr len : ℕ)
    (herr : (doMunmap mm alloc addr len).error ≠ none) : (doMunmap mm alloc addr len).mm = mm := by
  generalize hr : doMunmap mm alloc addr len = r at herr ⊢
  rw [doMunmap] at hr
  split at hr
  · rw [← hr]
  dsimp only at hr
  split at hr
  · rw [← hr]
  split at hr
  · rw [← hr]
  split at hr
  · rw [← hr]
  split at hr
  · rw [← hr]
  split at hr
  · rw [← hr]
  · subst hr
    exact absurd rfl herr

/-- **`do_munmap` refines deletion on the address map.** On success the range is unmapped, every other address keeps its
attributes and its file offset, and the list and the tree are well formed again; on an error nothing has changed. -/
theorem doMunmap_refines (mm : Mm) (h : mm.WellFormed) (alloc : Bool) (addr len : ℕ) :
    ((doMunmap mm alloc addr len).error = none →
      (∀ x, addressMap (doMunmap mm alloc addr len).mm.areas x =
        if addr ≤ x ∧ x < addr + pageAlign len then none else addressMap mm.areas x) ∧
      (doMunmap mm alloc addr len).mm.WellFormed) ∧
    ((doMunmap mm alloc addr len).error ≠ none → (doMunmap mm alloc addr len).mm = mm) := by
  refine ⟨fun hok => ⟨fun x => ?_, doMunmap_wellFormed h hok⟩,
    doMunmap_error mm alloc addr len⟩
  obtain h0 | hpos := Nat.eq_zero_or_pos (pageAlign len)
  · obtain ⟨hmm, -⟩ | ⟨_, _, _, _, _, hpos, -⟩ := doMunmap_spec h hok
    · rw [hmm, h0, if_neg (by omega)]
    · omega
  · rw [doMunmap_areas h hok hpos, addressMap_flatMap_cut (by omega)]

def fourPages : Mm := .ofAreas [⟨0x1000, 0x5000, 7, 0x77, none, 0, none, 0⟩]

theorem doMunmap_refines_hole : fourPages.WellFormed ∧
    ((doMunmap fourPages true 0x2000 0x1000).error = none →
      (∀ x, addressMap (doMunmap fourPages true 0x2000 0x1000).mm.areas x =
        if 0x2000 ≤ x ∧ x < 0x2000 + pageAlign 0x1000 then none
        else addressMap fourPages.areas x) ∧
      (doMunmap fourPages true 0x2000 0x1000).mm.WellFormed) ∧
    ((doMunmap fourPages true 0x2000 0x1000).error ≠ none →
      (doMunmap fourPages true 0x2000 0x1000).mm = fourPages) :=
  ⟨by decide, doMunmap_refines _ (by decide) _ _ _⟩

end Refinement

end I370Linux.Vma
