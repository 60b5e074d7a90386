import I370Linux.Munmap

/-! # The page tables that `do_munmap` frees

`free_pgtables` frees the page tables of the slots between the neighbours of the range.  Where it
walks from a predecessor it never frees one that a remaining area needs; where there is none it
clips the range at the end of the first remaining area instead of at its start, which
`freesLiveTable` turns into a condition on the areas before the call. -/

namespace I370Linux.Vma

open MmapAvl List

/-- Area `a` has addresses in the 1MB range of slot `s`. -/
def VmArea.Meets (a : VmArea) (s : ℕ) : Prop :=
  a.vmStart < (s + 1) * pgdirSize ∧ s * pgdirSize < a.vmEnd

instance (a : VmArea) (s : ℕ) : Decidable (a.Meets s) := inferInstanceAs (Decidable (_ ∧ _))

/-- There is something to unmap, nothing of an area lies below `addr`, and the first area that
reaches above `fin` starts in a slot below the one where the range or that area ends. -/
def freesLiveTable (as : List VmArea) (addr fin : ℕ) : Prop :=
  (∃ a ∈ as, a.vmStart < fin ∧ addr < a.vmEnd) ∧ (∀ a ∈ as, addr ≤ a.vmStart) ∧
    ∃ a ∈ as.find? (fun a => fin < a.vmEnd), max fin a.vmStart / pgdirSize <
      min ((fin + pgdirSize - 1) / pgdirSize * pgdirSize) a.vmEnd / pgdirSize

variable {addr fin last p start : ℕ} {v : ℕ → VmArea} {B l : List ℕ} {as : List VmArea} {mm : Mm}

theorem mem_slots {first s : ℕ} : s ∈ slots first last ↔ first / pgdirSize ≤ s ∧ s < last / pgdirSize := by
  rw [slots, mem_range'_1]
  omega

theorem freePgtablesFrom_spares {prev : ℕ} (hord : Ordered v (B ++ prev :: l)) :
    ∀ s ∈ freePgtablesFrom v start (start / pgdirSize * pgdirSize) last prev l,
      ∀ i ∈ B ++ prev :: l, ¬ (v i).Meets s := by
  -- a slot behind the last area passed, and before the next one if there is one
  have hfirst : ∀ (q s : ℕ), (if start / pgdirSize * pgdirSize < (v q).vmEnd then
      (v q).vmEnd + pgdirSize - 1 else start / pgdirSize * pgdirSize) / pgdirSize ≤ s →
      (v q).vmEnd ≤ s * pgdirSize := by
    intro q s h
    simp only [pgdirSize] at h ⊢
    split at h <;> omega
  induction l generalizing B prev with
  | nil =>
    intro s hs i hi hm
    rw [freePgtablesFrom, mem_slots] at hs
    have h1 := hfirst prev s hs.1
    have h2 : (v i).vmEnd ≤ (v prev).vmEnd := by
      obtain hi | hi := mem_append.mp hi
      · exact ((pairwise_append.mp hord.keys).2.2 i hi prev (mem_cons_self ..)).le
      · rw [mem_singleton.mp hi]
    exact absurd hm.2 (by omega)
  | cons next rest ih =>
    intro s hs i hi
    rw [freePgtablesFrom] at hs
    split at hs
    · exact ih (show Ordered v ((B ++ [prev]) ++ next :: rest) by simpa using hord) s hs i (by simpa using hi)
    rw [mem_slots] at hs
    have h1 := hfirst prev s hs.1
    have h2 : (s + 1) * pgdirSize ≤ (v next).vmStart := by
      simp only [pgdirSize] at hs ⊢
      omega
    intro hm
    rw [append_cons] at hi hord
    obtain hi | hi := mem_append.mp hi
    · have : (v i).vmEnd ≤ (v prev).vmEnd := by
        obtain hi | hi := mem_append.mp hi
        · exact ((pairwise_append.mp (pairwise_append.mp hord.keys).1).2.2 i hi prev
            (mem_singleton_self _)).le
        · rw [mem_singleton.mp hi]
      exact absurd hm.2 (by omega)
    · have : (v next).vmStart ≤ (v i).vmStart := by
        obtain ⟨hn, -, hnr⟩ := ordered_cons.mp (ordered_append.mp hord).2.1
        obtain rfl | hi := mem_cons.mp hi
        · exact le_rfl
        · exact le_trans hn.le (hnr i hi)
      exact absurd hm.1 (by omega)

/-- Where nothing lies below `addr`, the first area left is the rest of the first one that reaches
above `fin`. -/
theorem head?_flatMap_cut (hlow : ∀ a ∈ as, addr ≤ a.vmStart) (hne : ∀ a ∈ as, a.vmStart < a.vmEnd) :
    (as.flatMap (cut addr fin)).head? = (as.find? (fun a => fin < a.vmEnd)).map
      fun a => if a.vmStart < fin then a.tailFrom fin else a := by
  induction as with
  | nil => rfl
  | cons a as ih =>
    have h1 := hlow a (mem_cons_self ..)
    have h2 := hne a (mem_cons_self ..)
    rw [flatMap_cons]
    obtain h3 | h3 := le_or_gt a.vmEnd fin
    · rw [cut, if_pos (by omega), if_neg (by omega), if_neg (by omega),
        List.find?_cons_of_neg (by simpa using h3)]
      exact ih (fun b hb => hlow b (mem_cons_of_mem _ hb)) fun b hb => hne b (mem_cons_of_mem _ hb)
    · rw [List.find?_cons_of_pos (by simpa using h3), Option.map_some, cut]
      obtain h4 | h4 := lt_or_ge a.vmStart fin
      · rw [if_pos (by omega), if_neg (by omega), if_pos h3, if_pos h4]
        rfl
      · rw [if_neg (by omega), if_neg (by omega)]
        rfl

/-- `free_pgtables` without a predecessor: it clips at the end of the first area. -/
theorem spares_clipped_iff {a : VmArea} (hs : start < fin)
    (ha : fin ≤ a.vmStart) (hne : a.vmStart < a.vmEnd) (has : ∀ b ∈ as, a.vmEnd ≤ b.vmStart) :
    (∀ s ∈ slots (start / pgdirSize * pgdirSize)
        (min ((fin + pgdirSize - 1) / pgdirSize * pgdirSize) a.vmEnd),
      ∀ b ∈ a :: as, ¬ b.Meets s) ↔
    ¬ a.vmStart / pgdirSize < min ((fin + pgdirSize - 1) / pgdirSize * pgdirSize) a.vmEnd / pgdirSize := by
  constructor
  · -- the slot in which the area starts is freed
    intro h hlt
    refine h (a.vmStart / pgdirSize) (mem_slots.mpr ⟨?_, hlt⟩) a (mem_cons_self ..) ⟨?_, ?_⟩ <;>
      simp only [pgdirSize] at hlt ⊢ <;> omega
  · intro h s hs' b hb hm
    rw [mem_slots] at hs'
    have h1 : (s + 1) * pgdirSize ≤ a.vmStart := by
      simp only [pgdirSize] at h hs' ⊢
      omega
    obtain rfl | hb := mem_cons.mp hb
    · exact absurd hm.1 (by omega)
    · have := has b hb
      exact absurd hm.1 (by omega)

theorem exists_head_piece {w : ℕ → VmArea} {R C D : List ℕ}
    (hord : Ordered v (R ++ C)) (hR : ∀ r ∈ R, (v r).vmStart < fin ∧ addr < (v r).vmEnd)
    (hR0 : R ≠ []) (hrest : D.map w = (R.map v).flatMap (cut addr fin))
    (hlow : ¬ ∀ i ∈ R ++ C, addr ≤ (v i).vmStart) : ∃ p D', D = p :: D' ∧ (w p).vmEnd = addr := by
  obtain ⟨r, R', rfl⟩ := exists_cons_of_ne_nil hR0
  obtain ⟨hrlt, -, hr⟩ := ordered_cons.mp hord
  have hro := hR r (mem_cons_self ..)
  have hrs : (v r).vmStart < addr := by
    by_contra hge
    refine hlow fun i hi => ?_
    obtain rfl | hi := mem_cons.mp hi
    · omega
    · have := hr i hi
      omega
  rw [map_cons, flatMap_cons, cut, if_pos hro, if_pos hrs] at hrest
  cases D with
  | nil => cases hrest
  | cons p D' =>
    rw [map_cons, append_assoc, singleton_append, List.cons.injEq] at hrest
    exact ⟨p, D', rfl, by rw [hrest.1]; rfl⟩

theorem freePgtables_some (hl : mm.mmap = B ++ p :: l)
    (hp : p ∉ B) (start fin : ℕ) : freePgtables mm (some p) start fin =
      freePgtablesFrom mm.vma start (start / pgdirSize * pgdirSize)
        ((fin + pgdirSize - 1) / pgdirSize * pgdirSize) p l := by
  simp only [freePgtables, hl, vmNext_some hp]

theorem freePgtables_none (hl : mm.mmap = p :: l) (start fin : ℕ) : freePgtables mm none start fin =
      if start < (mm.vma p).vmEnd then slots (start / pgdirSize * pgdirSize)
        (min ((fin + pgdirSize - 1) / pgdirSize * pgdirSize) (mm.vma p).vmEnd)
      else freePgtablesFrom mm.vma start (start / pgdirSize * pgdirSize)
        ((fin + pgdirSize - 1) / pgdirSize * pgdirSize) p l := by
  simp only [freePgtables, hl]

section Unmapped

variable {mm' : Mm} {A R C D : List ℕ}

theorem freePgtables_spares (hord : Ordered mm.vma (A ++ (R ++ C)))
    (hR : ∀ r ∈ R, (mm.vma r).vmStart < fin ∧ addr < (mm.vma r).vmEnd) (hR0 : R ≠ [])
    (hl' : mm'.mmap = A ++ D ++ C) (hord' : Ordered mm'.vma (A ++ D ++ C))
    (hrest : D.map mm'.vma = (R.map mm.vma).flatMap (cut addr fin))
    (hlow : ¬ ∀ i ∈ A ++ (R ++ C), addr ≤ (mm.vma i).vmStart) :
    ∀ s ∈ freePgtables mm' A.getLast? addr fin, ∀ a ∈ mm'.areas, ¬ a.Meets s := by
  rw [Mm.areas, hl']
  simp only [forall_mem_map]
  cases hlast : A.getLast? with
  | some p =>
    obtain ⟨B, rfl⟩ := List.getLast?_eq_some_iff.mp hlast
    have hl'' : mm'.mmap = B ++ p :: (D ++ C) := by simpa using hl'
    have hord'' : Ordered mm'.vma (B ++ p :: (D ++ C)) := by simpa using hord'
    rw [freePgtables_some hl'' hord''.notMem.1]
    simpa using freePgtablesFrom_spares hord''
  | none =>
    obtain rfl := List.getLast?_eq_none_iff.mp hlast
    obtain ⟨p, D', rfl, hp⟩ := exists_head_piece (R := R) (C := C) hord hR hR0 hrest hlow
    rw [freePgtables_none hl', if_neg (by rw [hp]; exact lt_irrefl _)]
    exact freePgtablesFrom_spares (B := []) hord'

/-- Nothing lies below `addr`: what `free_pgtables` frees depends on the first area left. -/
theorem freePgtables_spares_iff (hlt : addr < fin) (hareas : mm'.areas = mm.areas.flatMap (cut addr fin))
    (hord' : Ordered mm'.vma mm'.mmap) (hne : ∀ a ∈ mm.areas, a.vmStart < a.vmEnd)
    (hlow : ∀ a ∈ mm.areas, addr ≤ a.vmStart) :
    (∀ s ∈ freePgtables mm' none addr fin, ∀ a ∈ mm'.areas, ¬ a.Meets s) ↔
      ¬ ∃ a ∈ mm.areas.find? (fun a => fin < a.vmEnd), max fin a.vmStart / pgdirSize <
        min ((fin + pgdirSize - 1) / pgdirSize * pgdirSize) a.vmEnd / pgdirSize := by
  have hhead : (mm.areas.flatMap (cut addr fin)).head? = _ := head?_flatMap_cut hlow hne
  rw [← hareas, Mm.areas] at hhead
  rw [Mm.areas]
  cases hl' : mm'.mmap with
  | nil =>
    rw [hl'] at hhead
    refine iff_of_true (by simp) ?_
    rintro ⟨a, ha, -⟩
    rw [Option.mem_def.mp ha] at hhead
    cases hhead
  | cons p l =>
    rw [hl'] at hhead hord'
    obtain ⟨a, ha, hpa⟩ : ∃ a, mm.areas.find? (fun a => fin < a.vmEnd) = some a ∧
        (if a.vmStart < fin then a.tailFrom fin else a) = mm'.vma p := by
      rw [map_cons, List.head?_cons, eq_comm, Option.map_eq_some_iff] at hhead
      exact hhead
    obtain ⟨hps, hpe⟩ : (mm'.vma p).vmStart = max fin a.vmStart ∧ (mm'.vma p).vmEnd = a.vmEnd := by
      rw [← hpa]
      split
      · next hlt => exact ⟨(max_eq_left hlt.le).symm, rfl⟩
      · next hge => exact ⟨(max_eq_right (not_lt.mp hge)).symm, rfl⟩
    obtain ⟨hplt, -, hprest⟩ := ordered_cons.mp hord'
    rw [freePgtables_none hl', if_pos (by omega), map_cons,
      spares_clipped_iff hlt (by omega) hplt (by simpa using hprest), hps, hpe, ha]
    simp

end Unmapped

/-- **`do_munmap` frees only page tables that no remaining area needs, unless `freesLiveTable`.** -/
theorem doMunmap_spares_iff (mm : Mm) (h : mm.WellFormed) (alloc : Bool) (addr len : ℕ)
    (hok : (doMunmap mm alloc addr len).error = none) :
    (∀ s ∈ (doMunmap mm alloc addr len).cleared, ∀ a ∈ (doMunmap mm alloc addr len).mm.areas,
      ¬ a.Meets s) ↔ ¬ freesLiveTable mm.areas addr (addr + pageAlign len) := by
  have hne : ∀ a ∈ mm.areas, a.vmStart < a.vmEnd := by
    simpa [Mm.areas] using h.ordered.1
  rcases doMunmap_spec h hok with
    ⟨-, hcl, hall⟩ | ⟨A, R, C, e, mm', hpos, hR0, hl, hA, hR, hC, he, hrel, hmm, hcl⟩
  · -- nothing is unmapped
    rw [hcl]
    refine iff_of_true (by simp) ?_
    rintro ⟨⟨a, ha, h1, h2⟩, hlow, -⟩
    have h3 := hlow a ha
    obtain h0 | hall := hall
    · omega
    · have := hall a ha
      omega
  · have hareas := doMunmap_areas h hok hpos
    obtain ⟨D, v, t, hmm', hord', -, hrest, -, -⟩ := hrel
    have hl' : mm'.mmap = A ++ D ++ C := by rw [hmm']
    obtain rfl : mm'.vma = v := by rw [hmm']
    have hareas : mm'.areas = mm.areas.flatMap (cut addr (addr + pageAlign len)) := by
      rw [hmm] at hareas
      exact hareas
    rw [hcl, hmm]
    show (∀ s ∈ _, ∀ a ∈ mm'.areas, ¬ a.Meets s) ↔ _
    by_cases hlow : ∀ a ∈ mm.areas, addr ≤ a.vmStart
    · have hA0 : A = [] := by
        refine eq_nil_iff_forall_not_mem.mpr fun a ha => ?_
        have h1 := hA a ha
        have h2 : mm.vma a ∈ mm.areas := mem_map_of_mem (by simp [hl, ha])
        have h3 := hlow _ h2
        have h4 := hne _ h2
        omega
      have hover : ∃ a ∈ mm.areas, a.vmStart < addr + pageAlign len ∧ addr < a.vmEnd := by
        obtain ⟨r, hr⟩ := exists_mem_of_ne_nil _ hR0
        exact ⟨mm.vma r, mem_map_of_mem (by simp [hl, hr]), hR r hr⟩
      rw [hA0, List.getLast?_nil, freePgtables_spares_iff (by omega) hareas (hl' ▸ hord') hne hlow]
      exact not_congr ⟨fun hf => ⟨hover, hlow, hf⟩, fun hf => hf.2.2⟩
    · refine iff_of_true (freePgtables_spares (hl ▸ h.ordered) hR hR0 hl' hord' hrest ?_)
        fun hf => hlow hf.2.1
      rw [← hl]
      exact fun hall => hlow (forall_mem_map.mpr hall)

/-- A page at 0x08000000 in front of an area of two megabytes. -/
def pageAndArea : Mm := .ofAreas
  [⟨0x08000000, 0x08001000, 5, 5, none, 0, none, 0⟩,
    ⟨0x08002000, 0x08200000, 5, 5, none, 0, none, 0⟩]

theorem doMunmap_spares_iff_tail : pageAndArea.WellFormed ∧
    (doMunmap pageAndArea true 0x08100000 0x100000).error = none ∧
    ((∀ s ∈ (doMunmap pageAndArea true 0x08100000 0x100000).cleared,
      ∀ a ∈ (doMunmap pageAndArea true 0x08100000 0x100000).mm.areas, ¬ a.Meets s) ↔
      ¬ freesLiveTable pageAndArea.areas 0x08100000 (0x08100000 + pageAlign 0x100000)) :=
  ⟨by decide, by decide, doMunmap_spares_iff _ (by decide) _ _ _ (by decide)⟩

/-- Unmapping the page frees the page table under the start of the area. -/
theorem doMunmap_frees_live : pageAndArea.WellFormed ∧
    (doMunmap pageAndArea true 0x08000000 0x1000).error = none ∧
    ∃ s ∈ (doMunmap pageAndArea true 0x08000000 0x1000).cleared,
      ∃ a ∈ (doMunmap pageAndArea true 0x08000000 0x1000).mm.areas, a.Meets s := by
  decide

end I370Linux.Vma
