import I370Linux.VmaCalls
import I370Linux.Runs

/-! # The bookkeeping of the areas

`Mm.Books k l` is the invariant of the calls: the list and the tree are well formed, the cache points
to a listed area, the areas are made of whole pages, `map_count` is the length of the list, and
`total_vm` and `locked_vm` are the sizes of the areas and of the locked ones up to `k` and `l` pages
that are still to be counted.  Between calls nothing is owed. -/

namespace I370Linux.Vma

open MmapAvl Runs Function List

/-- The pages an area has in `locked_vm`. -/
def VmArea.lockedPages (a : VmArea) : ℤ := if a.locked then a.pages else 0

/-- An area of whole pages below `TASK_SIZE`. -/
def VmArea.Whole (a : VmArea) : Prop :=
  a.vmStart % pageSize = 0 ∧ a.vmEnd % pageSize = 0 ∧ a.vmEnd ≤ taskSize

instance (a : VmArea) : Decidable a.Whole := inferInstanceAs (Decidable (_ ∧ _))

/-- The books of an address space, with `k` pages and `l` locked pages not yet counted. -/
structure Mm.Books (mm : Mm) (k l : ℤ) : Prop where
  wellFormed : mm.WellFormed
  cache : ∀ i ∈ mm.mmapCache, i ∈ mm.mmap
  whole : ∀ i ∈ mm.mmap, (mm.vma i).Whole
  mapCount : mm.mapCount = mm.mmap.length
  totalVm : mm.totalVm + k = (mm.areas.map (·.pages)).sum
  lockedVm : mm.lockedVm + l = (mm.areas.map (·.lockedPages)).sum

section Primitives

variable {mm : Mm} {k l : ℤ}

theorem Mm.Books.charge (h : mm.Books k l) (b : Bool) (n : ℤ) :
    (mm.charge b n).Books (k - n) (l - if b then n else 0) where
  wellFormed := ⟨h.wellFormed.ordered, h.wellFormed.tree⟩
  __ := h
  totalVm := by
    have := h.totalVm
    show mm.totalVm + n + (k - n) = _
    rw [show mm.totalVm + n + (k - n) = mm.totalVm + k by omega, this]
    rfl
  lockedVm := by
    have := h.lockedVm
    show mm.lockedVm + (if b then n else 0) + (l - if b then n else 0) = _
    rw [add_assoc, add_sub_cancel, this]
    rfl

theorem Mm.Books.findVma (h : mm.Books k l) (addr : ℕ) : (findVma mm addr).2.Books k l := by
  obtain ⟨-, c, hc, hmem⟩ := findVma_spec addr h.wellFormed h.cache
  rw [hc]
  exact { h with wellFormed := { h.wellFormed with }, cache := hmem }

theorem Mm.Books.found (h : mm.Books k l) {addr vma : ℕ} {mm' : Mm}
    (hp : Vma.findVma mm addr = (some vma, mm')) : mm'.Books k l ∧ vma ∈ mm'.mmap ∧ addr < (mm'.vma vma).vmEnd := by
  have hb := h.findVma addr
  obtain ⟨hfirst, c, hc, -⟩ := findVma_spec addr h.wellFormed h.cache
  rw [hp] at hb hfirst hc
  obtain rfl : mm' = _ := hc
  exact ⟨hb, mem_of_find?_eq_some hfirst.symm, by simpa using List.find?_some hfirst.symm⟩

theorem Mm.Books.makePagesPresent (h : mm.Books k l) (addr : ℕ) :
    (makePagesPresent mm addr).Books k l := h.findVma addr

variable {v : ℕ → VmArea} {P S : List ℕ} {i : ℕ} {a : VmArea}

theorem map_update_of_notMem (hi : i ∉ P) : P.map (update v i a) = P.map v :=
  map_congr_left fun _ hj => update_of_notMem a hi hj

theorem map_update_insert (hi : i ∉ P ++ S) : (P ++ i :: S).map (update v i a) = P.map v ++ a :: S.map v := by
  obtain ⟨hP, hS⟩ : i ∉ P ∧ i ∉ S := by simpa using hi
  rw [map_append, map_cons, map_update_of_notMem hP, map_update_of_notMem hS, update_self]

theorem Mm.Books.exchange {mm' : Mm} {k' l' : ℤ} {X Z : List VmArea} (h : mm.Books k l) (M N : List VmArea)
    (hold : mm.areas = X ++ (M ++ Z)) (hnew : mm'.areas = X ++ (N ++ Z)) (hN : ∀ a ∈ N, a.Whole)
    (hwf : mm'.WellFormed) (hcache : ∀ i ∈ mm'.mmapCache, i ∈ mm'.mmap)
    (hcount : mm'.mapCount + M.length = mm.mapCount + N.length)
    (hk : mm'.totalVm + k' + (M.map (·.pages)).sum = mm.totalVm + k + (N.map (·.pages)).sum)
    (hl : mm'.lockedVm + l' + (M.map (·.lockedPages)).sum = mm.lockedVm + l + (N.map (·.lockedPages)).sum) :
    mm'.Books k' l' := by
  obtain ⟨-, -, hwhole, hlen, htotal, hlocked⟩ := h
  have hlength (m : Mm) : m.areas.length = m.mmap.length := length_map _
  rw [← hlength, hold] at hlen
  rw [hold] at htotal hlocked
  refine ⟨hwf, hcache, forall_mem_map.mp fun a ha => ?_, ?_, ?_, ?_⟩
  · have hold' : ∀ a ∈ X ++ (M ++ Z), a.Whole := hold ▸ forall_mem_map.mpr hwhole
    rw [show mm'.mmap.map mm'.vma = _ from hnew, mem_append, mem_append] at ha
    obtain ha | ha | ha := ha
    · exact hold' a (mem_append_left _ ha)
    · exact hN a ha
    · exact hold' a (mem_append_right _ (mem_append_right _ ha))
  · rw [← hlength, hnew]
    simp only [length_append] at hlen ⊢
    omega
  · rw [hnew]
    simp only [map_append, sum_append] at htotal ⊢
    omega
  · rw [hnew]
    simp only [map_append, sum_append] at hlocked ⊢
    omega

theorem Mm.Books.insertVmStruct (h : mm.Books k l)
    (hl : mm.mmap = P ++ S) (hi : i ∉ mm.mmap) (ha : a.Whole) (hlt : a.vmStart < a.vmEnd)
    (hP : ∀ p ∈ P, (mm.vma p).vmEnd ≤ a.vmStart) (hS : ∀ s ∈ S, a.vmEnd ≤ (mm.vma s).vmStart) :
    ∃ t, Vma.insertVmStruct (mm.setVma i a) i =
        { mm with
          vma := update mm.vma i a
          mmap := P ++ i :: S
          mmapAvl := t
          mapCount := mm.mapCount + 1 } ∧
      (Vma.insertVmStruct (mm.setVma i a) i).Books (k + a.pages) (l + a.lockedPages) := by
  rw [hl] at hi
  obtain ⟨hord, t, hins, ht⟩ := insertVmStruct_setVma h.wellFormed hl hi hlt hP hS
  refine ⟨t, hins, ?_⟩
  rw [hins]
  have hareas := map_update_insert (v := mm.vma) (a := a) hi
  have hold : mm.areas = P.map mm.vma ++ S.map mm.vma := by rw [Mm.areas, hl, map_append]
  refine h.exchange [] [a] hold hareas (by simpa using ha) ⟨hord, ht⟩ (fun j hj => ?_) (by simp) ?_ ?_
  · have := h.cache j hj
    rw [hl] at this
    simpa [or_comm, or_left_comm] using .inr (mem_append.mp this)
  · simp [add_assoc]
  · simp [add_assoc]

end Primitives

/-! ### Merging -/

section Merging

variable {mm : Mm} {k l : ℤ}

variable {a b : VmArea} {endAddr : ℕ}

theorem mergeable_iff (h : mergeable a b = true) : b.vmFlags = a.vmFlags ∧ a.vmEnd = b.vmStart := by
  simp only [mergeable, Bool.and_eq_true, decide_eq_true_eq] at h
  exact ⟨h.1.1.2, h.1.2⟩

theorem locked_congr (h : a.vmFlags = b.vmFlags) : a.locked = b.locked := by
  rw [VmArea.locked, VmArea.locked, h]

theorem pages_join (ha : a.Whole) (hb : b.Whole) (hab : a.vmEnd = b.vmStart)
    (ha' : a.vmStart ≤ a.vmEnd) (hb' : b.vmStart ≤ b.vmEnd) :
    ({ a with vmEnd := b.vmEnd } : VmArea).pages = a.pages + b.pages := by
  obtain ⟨h1, h2, -⟩ := ha
  obtain ⟨h3, h4, -⟩ := hb
  simp only [VmArea.pages, pageSize] at *
  omega

/-- The two neighbours `prev` and `mpnt` become one; the cache is killed at the end of
`merge_segments` only. -/
theorem mergeInto_books {P S : List ℕ} {prev mpnt : ℕ}
    (h : ({ mm with mmapCache := none } : Mm).Books k l) (hl : mm.mmap = P ++ prev :: mpnt :: S)
    (hm : mergeable (mm.vma prev) (mm.vma mpnt) = true) :
    (mergeInto mm prev mpnt).mmap = P ++ prev :: S ∧
      ({ mergeInto mm prev mpnt with mmapCache := none } : Mm).Books k l := by
  obtain ⟨hflags, hadj⟩ := mergeable_iff hm
  have hord : Ordered mm.vma (P ++ prev :: mpnt :: S) := hl ▸ h.wellFormed.ordered
  obtain ⟨t, hu, ht⟩ := unlink_spec (show mm.WellFormed from ⟨h.wellFormed.ordered, h.wellFormed.tree⟩)
    (show mm.mmap = (P ++ [prev]) ++ mpnt :: S by simpa using hl)
  rw [append_assoc, singleton_append] at hu ht
  obtain ⟨hPmS, hplt, hPp, hpm⟩ := ordered_insert.mp hord
  obtain ⟨hPS, hmlt, hPm, hmS⟩ := ordered_insert.mp hPmS
  have hnot : prev ∉ P ++ S := by
    have := hord.notMem
    simp only [mem_cons, not_or] at this
    simp [this]
  set a : VmArea := { mm.vma prev with vmEnd := (mm.vma mpnt).vmEnd }
  have hwp : (mm.vma prev).Whole := h.whole prev (show prev ∈ mm.mmap by simp [hl])
  have hwm : (mm.vma mpnt).Whole := h.whole mpnt (show mpnt ∈ mm.mmap by simp [hl])
  have hpages : a.pages = (mm.vma prev).pages + (mm.vma mpnt).pages := pages_join hwp hwm hadj hplt.le hmlt.le
  have hlocked : a.lockedPages = (mm.vma prev).lockedPages + (mm.vma mpnt).lockedPages := by
    rw [VmArea.lockedPages, VmArea.lockedPages, VmArea.lockedPages, locked_congr hflags,
      show a.locked = (mm.vma prev).locked from rfl, hpages]
    split <;> simp
  have hold : ({ mm with mmapCache := none } : Mm).areas =
      P.map mm.vma ++ mm.vma prev :: mm.vma mpnt :: S.map mm.vma := by
    rw [Mm.areas, hl]
    simp
  have hmm : mergeInto mm prev mpnt = { mm with
      vma := update mm.vma prev a
      mmap := P ++ prev :: S
      mmapAvl := t
      mapCount := mm.mapCount - 1 } := by
    rw [mergeInto, hu]
    rfl
  rw [hmm]
  refine ⟨rfl, h.exchange [mm.vma prev, mm.vma mpnt] [a] hold (map_update_insert hnot) ?_
    ⟨ordered_update hPS hnot (show (mm.vma prev).vmStart < (mm.vma mpnt).vmEnd by omega) hPp hmS, ht⟩ (by simp)
    ?_ ?_ ?_⟩
  · simpa using ⟨hwp.1, hwm.2⟩
  · change mm.mapCount - 1 + 2 = mm.mapCount + 1
    omega
  · simp [hpages]
  · simp [hlocked]

theorem Mm.Books.dropCache (h : mm.Books k l) : ({ mm with mmapCache := none } : Mm).Books k l :=
  { h with wellFormed := { h.wellFormed with }, cache := by simp }

theorem mergeLoop_books (rest : List ℕ) : ∀ {mm : Mm} {P : List ℕ} {prev : ℕ},
    ({ mm with mmapCache := none } : Mm).Books k l → mm.mmap = P ++ prev :: rest →
    ({ mergeLoop endAddr mm prev rest with mmapCache := none } : Mm).Books k l := by
  induction rest with
  | nil => exact fun h _ => h
  | cons mpnt rest ih =>
    intro mm P prev h hl
    rw [mergeLoop]
    split_ifs with hend hm
    · obtain ⟨hl', h'⟩ := mergeInto_books h hl hm
      exact ih h' hl'
    · exact ih h (P := P ++ [prev]) (by simpa using hl)
    · exact h

theorem mergeSegments_cases (h : mm.WellFormed) (startAddr endAddr : ℕ) :
    mergeSegments mm startAddr endAddr = mm ∨ ∃ P prev rest, mm.mmap = P ++ prev :: rest ∧
      mergeSegments mm startAddr endAddr = { mergeLoop endAddr mm prev rest with mmapCache := none } := by
  rw [mergeSegments]
  obtain ⟨-, hnone⟩ | ⟨A, i, B, hf, hprev⟩ := findVmaPrev_spec startAddr h
  · rcases hp : findVmaPrev mm startAddr with ⟨o, p⟩
    rw [hp] at hnone
    obtain rfl : o = none := hnone
    exact .inl rfl
  · obtain ⟨P, rest, hl⟩ : ∃ P rest, mm.mmap = P ++ A.getLast?.getD i :: rest := by
      obtain rfl | ⟨A', p, rfl⟩ := A.eq_nil_or_concat
      · exact ⟨[], B, hf.list⟩
      · exact ⟨A', i :: B, by simpa using hf.list⟩
    refine .inr ⟨P, _, rest, hl, ?_⟩
    rw [hprev]
    dsimp only
    rw [hl, vmNext_some (hl ▸ h.ordered).notMem.1]

theorem Mm.Books.mergeSegments (h : mm.Books k l) (startAddr endAddr : ℕ) :
    (mergeSegments mm startAddr endAddr).Books k l := by
  obtain heq | ⟨P, prev, rest, hl, heq⟩ := mergeSegments_cases h.wellFormed startAddr endAddr
  · rw [heq]
    exact h
  · rw [heq]
    exact mergeLoop_books rest h.dropCache hl

theorem mergeLoop_vmFlags (rest : List ℕ) : ∀ (mm : Mm) (prev j : ℕ),
    ((mergeLoop endAddr mm prev rest).vma j).vmFlags = (mm.vma j).vmFlags := by
  induction rest with
  | nil => exact fun _ _ _ => rfl
  | cons mpnt rest ih =>
    intro mm prev j
    rw [mergeLoop]
    split_ifs
    · rw [ih]
      show (update mm.vma prev _ j).vmFlags = _
      obtain rfl | hj := eq_or_ne j prev
      · rw [update_self]
      · rw [update_of_ne hj]
    · exact ih mm mpnt j
    · rfl

theorem mergeSegments_vmFlags (mm : Mm) (startAddr endAddr j : ℕ) :
    ((mergeSegments mm startAddr endAddr).vma j).vmFlags = (mm.vma j).vmFlags := by
  rw [mergeSegments]
  split
  · rfl
  · exact mergeLoop_vmFlags _ mm _ j

end Merging

/-! ### Unmapping -/

section Unmapping

variable {mm : Mm} {k l : ℤ}

theorem pageAlign_mod (n : ℕ) : pageAlign n % pageSize = 0 := by
  rw [pageAlign]
  exact Nat.mul_mod_left _ _

variable {addr fin : ℕ} {a : VmArea}

theorem add_pageAlign_mod (h : addr % pageSize = 0) (n : ℕ) : (addr + pageAlign n) % pageSize = 0 := by
  simp [Nat.add_mod, h, pageAlign_mod]

theorem doMunmap_range {alloc : Bool} {len : ℕ} (hok : (doMunmap mm alloc addr len).error = none) :
    addr % pageSize = 0 ∧ addr ≤ taskSize ∧ len ≤ taskSize - addr := by
  rw [doMunmap] at hok
  split at hok
  · cases hok
  · next h => exact ⟨by omega, by omega, by omega⟩

section

variable (ha : a.Whole) (haddr : addr % pageSize = 0) (hfin : fin % pageSize = 0) (hlt : addr < fin)
  (hne : a.vmStart < a.vmEnd) (ho : a.vmStart < fin ∧ addr < a.vmEnd)
include ha haddr hfin hlt hne ho

theorem pages_cut : ((cut addr fin a).map (·.pages)).sum = a.pages - clipPages addr fin a := by
  obtain ⟨h1, h2, -⟩ := ha
  rw [cut, if_pos ho]
  split <;> split <;> simp only [map_append, map_cons, map_nil, sum_append, sum_cons,
      sum_nil, VmArea.pages, clipPages, VmArea.headTo, VmArea.tailFrom, pageSize] at * <;>
    omega

theorem lockedPages_cut
    : ((cut addr fin a).map (·.lockedPages)).sum =
      a.lockedPages - if a.locked then clipPages addr fin a else 0 := by
  have hlocked : ∀ b ∈ cut addr fin a, b.lockedPages = if a.locked then b.pages else 0 := fun b hb => by
      rw [VmArea.lockedPages, locked_congr (congrArg VmAttr.vmFlags (mem_cut hb).2.2.1)]
  rw [map_congr_left hlocked, VmArea.lockedPages]
  cases a.locked with
  | true => exact pages_cut ha haddr hfin hlt hne ho
  | false => simp

end

theorem whole_of_mem_cut {b : VmArea} (ha : a.Whole) (haddr : addr % pageSize = 0)
    (hfin : fin % pageSize = 0) (hb : b ∈ cut addr fin a) : b.Whole := by
  have hend := (mem_cut hb).2.1
  obtain ⟨h1, h2, h3⟩ := ha
  refine ⟨?_, ?_, le_trans hend h3⟩ <;>
  · simp only [cut] at hb
    split_ifs at hb <;> simp only [mem_append, mem_singleton, not_mem_nil, or_false, false_or] at hb <;>
      rcases hb with rfl | rfl <;> assumption

theorem sum_flatMap_cut {f g : VmArea → ℤ} (as : List VmArea)
    (h : ∀ a ∈ as, ((cut addr fin a).map f).sum = f a - g a) :
    ((as.flatMap (cut addr fin)).map f).sum = (as.map f).sum - (as.map g).sum := by
  induction as with
  | nil => simp
  | cons a as ih =>
    rw [flatMap_cons, map_append, sum_append, h a (mem_cons_self ..),
      ih fun b hb => h b (mem_cons_of_mem _ hb), map_cons, map_cons, sum_cons,
      sum_cons]
    omega

theorem Mm.Books.doMunmap (h : mm.Books k l) (alloc : Bool) (addr len : ℕ) :
    (doMunmap mm alloc addr len).mm.Books k l := by
  by_cases hok : (Vma.doMunmap mm alloc addr len).error = none
  · have haddr := (doMunmap_range hok).1
    have hfin := add_pageAlign_mod haddr len
    rcases doMunmap_spec h.wellFormed hok with
      ⟨hmm, -, -⟩ | ⟨A, R, C, e, mm', hpos, -, hl, hA, hR, hC, -, hrel, hmm, -⟩
    · rw [hmm]
      exact h
    · have hwf := doMunmap_wellFormed h.wellFormed hok
      have hareas := doMunmap_areas h.wellFormed hok hpos
      have hareaR : ∀ a ∈ R.map mm.vma, a.Whole ∧ a.vmStart < a.vmEnd ∧
          a.vmStart < addr + pageAlign len ∧ addr < a.vmEnd := by
        refine forall_mem_map.mpr fun r hr => ?_
        have hr' : r ∈ mm.mmap := by simp [hl, hr]
        exact ⟨h.whole r hr', h.wellFormed.ordered.1 r hr', hR r hr⟩
      have hold : mm.areas = A.map mm.vma ++ (R.map mm.vma ++ C.map mm.vma) := by
        rw [Mm.areas, hl, map_append, map_append]
      have hnew : mm.areas.flatMap (cut addr (addr + pageAlign len)) = A.map mm.vma ++
          ((R.map mm.vma).flatMap (cut addr (addr + pageAlign len)) ++ C.map mm.vma) := by
        rw [hold, flatMap_append, flatMap_append,
          flatMap_cut_of_disjoint (by simpa using fun a ha => .inl (hA a ha)),
          flatMap_cut_of_disjoint (show ∀ a ∈ C.map mm.vma, _ by
            simpa using fun c hc => .inr (hC c hc))]
      obtain ⟨D, v, t, hmm', -, -, -, -, -⟩ := hrel
      refine h.exchange (R.map mm.vma) _ hold (hareas.trans hnew) (fun b hb => ?_) hwf (by rw [hmm]; simp) ?_ ?_ ?_
      · obtain ⟨a, ha, hb⟩ := mem_flatMap.mp hb
        exact whole_of_mem_cut (hareaR a ha).1 haddr hfin hb
      · have hlen := congrArg length (hareas.trans hnew)
        rw [hmm, hmm'] at hlen ⊢
        simp only [Mm.areas, length_append, length_map] at hlen ⊢
        omega
      · rw [sum_flatMap_cut _ fun a ha => pages_cut (hareaR a ha).1 haddr hfin (by omega)
          (hareaR a ha).2.1 (hareaR a ha).2.2, hmm, hmm']
        simp only
        omega
      · rw [sum_flatMap_cut _ fun a ha => lockedPages_cut (hareaR a ha).1 haddr hfin (by omega)
          (hareaR a ha).2.1 (hareaR a ha).2.2, hmm, hmm']
        simp only
        omega
  · rw [doMunmap_error mm alloc addr len hok]
    exact h

end Unmapping

/-! ### Mapping -/

section Mapping

variable {mm : Mm} {k l : ℤ}

theorem pageAlign_of_mod {n : ℕ} (h : n % pageSize = 0) (hn : n < 2 ^ 32) : pageAlign n = n := by
  simp only [pageAlign, pageSize] at *
  omega

theorem exists_split {v : ℕ → VmArea} {lo hi : ℕ} {L : List ℕ} (hord : Ordered v L)
    (hfree : ∀ i ∈ L, (v i).vmEnd ≤ lo ∨ hi ≤ (v i).vmStart) :
    ∃ A B, L = A ++ B ∧ (∀ a ∈ A, (v a).vmEnd ≤ lo) ∧ ∀ b ∈ B, hi ≤ (v b).vmStart := by
  induction L with
  | nil => exact ⟨[], [], rfl, by simp, by simp⟩
  | cons i L ih =>
    obtain ⟨hi', hord', hiL⟩ := ordered_cons.mp hord
    obtain h | h := hfree i (mem_cons_self ..)
    · obtain ⟨A, B, rfl, hA, hB⟩ := ih hord' fun j hj => hfree j (mem_cons_of_mem _ hj)
      exact ⟨i :: A, B, rfl, by simpa using ⟨h, hA⟩, hB⟩
    refine ⟨[], i :: L, rfl, by simp, ?_⟩
    intro b hb
    obtain rfl | hb := mem_cons.mp hb
    · exact h
    · have := hiL b hb
      omega

section

variable {a : VmArea} (h : mm.Books k l) (ha : a.Whole) (hlt : a.vmStart < a.vmEnd)
  (hfree : ∀ i ∈ mm.mmap, (mm.vma i).vmEnd ≤ a.vmStart ∨ a.vmEnd ≤ (mm.vma i).vmStart)
include h ha hlt hfree

theorem Mm.Books.place :
    (Vma.insertVmStruct (mm.setVma mm.kmemCacheAlloc a) mm.kmemCacheAlloc).Books
        (k + a.pages) (l + a.lockedPages) ∧
      (Vma.insertVmStruct (mm.setVma mm.kmemCacheAlloc a) mm.kmemCacheAlloc).vma =
        update mm.vma mm.kmemCacheAlloc a := by
  obtain ⟨P, S, hl, hP, hS⟩ := exists_split h.wellFormed.ordered hfree
  have hnew : mm.kmemCacheAlloc ∉ mm.mmap := kmemCacheAlloc_notMem mm 0
  obtain ⟨t, hins, hb⟩ := h.insertVmStruct hl hnew ha hlt hP hS
  exact ⟨hb, by rw [hins]⟩

theorem Mm.Books.mapArea : (mapArea mm a).Books k l := by
  have hb := ((h.place ha hlt hfree).1.mergeSegments a.vmStart a.vmEnd).charge a.locked a.pages
  rw [add_sub_cancel_right, VmArea.lockedPages, add_sub_cancel_right] at hb
  simp only [Vma.mapArea]
  split
  · exact hb.makePagesPresent _
  · exact hb

end

theorem callMmap_range {file : Option File} {a b : VmArea} (h : callMmap file a = .ok b) :
    b.vmStart = a.vmStart ∧ b.vmEnd = a.vmEnd := by
  unfold callMmap at h
  split at h
  · cases h
    exact ⟨rfl, rfl⟩
  split_ifs at h
  split at h
  · cases h
  · cases h
    exact ⟨rfl, rfl⟩

theorem Mm.Books.doMmapAt (h : mm.Books k l) (env : MmapEnv) (file : Option File) {addr len : ℕ}
    (prot flags off : BitVec 32) (hlen : len % pageSize = 0) (hpos : 0 < len) :
    (doMmapAt mm env file addr len prot flags off).2.Books k l := by
  have hu := h.doMunmap env.allocExtra addr len
  rw [Vma.doMmapAt]
  split
  · exact h
  split
  · exact h
  dsimp only
  split
  · exact hu
  next hok =>
  have hok := not_not.mp hok
  split
  · exact hu
  split
  · exact hu
  split
  · exact hu
  next b hb =>
  obtain ⟨haddr, hle, hlen'⟩ := doMunmap_range hok
  have halign : pageAlign len = len := pageAlign_of_mod hlen (by simp only [taskSize] at hlen'; omega)
  obtain ⟨hs, he⟩ := callMmap_range hb
  simp only at hs he
  have hareas := doMunmap_areas h.wellFormed hok (halign.symm ▸ hpos)
  refine hu.mapArea ⟨by rw [hs]; exact haddr, ?_, by rw [he]; omega⟩ (by omega) fun i hi => ?_
  · rw [he]
    have := add_pageAlign_mod haddr len
    rwa [halign] at this
  · have hmem : (Vma.doMunmap mm env.allocExtra addr len).mm.vma i ∈
        (Vma.doMunmap mm env.allocExtra addr len).mm.areas := mem_map_of_mem hi
    rw [hareas, halign] at hmem
    obtain ⟨a, -, ha⟩ := mem_flatMap.mp hmem
    rw [hs, he]
    exact (mem_cut ha).2.2.2

theorem getUnmappedArea_books (h : mm.Books k l) (addr len : ℕ) :
    (getUnmappedArea mm addr len).2.Books k l := by
  rw [getUnmappedArea]
  split
  · exact h
  · dsimp only
    have := h.findVma (pageAlign (if addr = 0 then taskSize / 3 else addr))
    split <;> next heq => rw [heq] at this; exact this

theorem Mm.Books.doMmap (h : mm.Books k l) (env : MmapEnv) (file : Option File) (addr len : ℕ)
    (prot flags off : BitVec 32) : (doMmap mm env file addr len prot flags off).2.Books k l := by
  rw [Vma.doMmap]
  dsimp only
  split
  · exact h
  next h0 =>
  split
  · exact h
  split
  · exact h
  split
  · exact h
  split
  · exact h
  split
  · exact h
  have hlen := pageAlign_mod len
  have hpos : 0 < pageAlign len := Nat.pos_of_ne_zero h0
  split_ifs
  · exact h
  · exact h.doMmapAt env file prot flags off hlen hpos
  · exact getUnmappedArea_books h addr _
  · exact (getUnmappedArea_books h addr _).doMmapAt env file prot flags off hlen hpos

theorem Mm.Books.sysBrk (h : mm.Books k l) (env : MmapEnv) (rlimData : Option ℕ) (addr : ℕ) :
    (sysBrk mm env rlimData addr).2.Books k l := by
  have hset : ∀ {mm : Mm} (b : ℕ), mm.Books k l → ({ mm with brk := b } : Mm).Books k l :=
    fun b h => { h with wellFormed := { h.wellFormed with } }
  rw [Vma.sysBrk]
  dsimp only
  split
  · exact h
  split
  · exact hset _ h
  split
  · split
    · exact hset _ (h.doMunmap ..)
    · exact h.doMunmap ..
  split
  · exact h
  have hfind : (findVmaIntersection mm (pageAlign mm.brk)
      ((pageAlign addr + pageSize) % 2 ^ 32)).2.Books k l := by
    have := h.findVma (pageAlign mm.brk)
    rw [findVmaIntersection]
    split <;> next heq => rw [heq] at this; exact this
  split
  · next heq =>
    rw [heq] at hfind
    exact hfind
  next heq =>
  rw [heq] at hfind
  split
  · exact hfind
  have hmap := hfind.doMmap env none (pageAlign mm.brk)
    ((pageAlign addr + 2 ^ 32 - pageAlign mm.brk) % 2 ^ 32) PROT_ALL (MAP_FIXED ||| MAP_PRIVATE) 0
  split
  · next heq =>
    rw [heq] at hmap
    split
    · exact hset _ hmap
    · exact hmap
  · next heq =>
    rw [heq] at hmap
    exact hmap

end Mapping

end I370Linux.Vma
