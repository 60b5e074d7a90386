import I370Linux.VmaBooks

/-! # The address space of a child

The model of `copy_mm`, `mm_alloc`, `dup_mmap` and `mmput` of `kernel/fork.c`, for a child with an
address space of its own, and of `exit_mmap` and `remove_shared_vm_struct` of `mm/mmap.c`, which undo a
fork that fails.

The structures of parent and child, and of all other address spaces that map a file, have different
numbers; `iMmap` is the ring of an inode as a list of them.  What `kmem_cache_alloc`, `pgd_alloc` and
`copy_page_range` answer comes with the call; a structure that is in use counts as a failure.  Page
tables, `rss`, the segments and the `open` and `close` operations of the areas are left out.

The child starts as a copy of the `mm_struct` of the parent.  `mm_alloc` and `dup_mmap` set the list,
the tree and `map_count`, and clear `VM_LOCKED` in the areas, but `locked_vm` stays that of the parent
(`fork_iff`). -/

namespace I370Linux.ForkMm

open Vma MmapAvl Function List

/-- Parent, child and what they share. -/
structure World where
  parent : Mm
  child : Option Mm
  /-- The structures that `kmem_cache_alloc` has given out. -/
  inUse : ℕ → Bool
  fCount : ℕ → ℤ
  iWritecount : ℕ → ℤ
  iMmap : ℕ → List ℕ
  /-- `f_dentry->d_inode`. -/
  inode : ℕ → ℕ

/-- The answers for one area: a structure, and whether its pages could be copied. -/
structure AreaAnswer where
  tmp : Option ℕ
  copied : Bool

/-- The answers for a call of `copy_mm`. -/
structure Answers where
  mmStruct : Bool
  pageTables : Bool
  area : ℕ → AreaAnswer

/-! ### Files -/

/-- The area has `VM_DENYWRITE`: its file counts as one that may not be written. -/
def denyWrite (a : VmArea) : Bool := a.vmFlags &&& VM_DENYWRITE ≠ 0

/-- The file of a copied area: a reference more, and a place in the ring behind the original. -/
def shareFile (w : World) (mpnt tmp : ℕ) (a : VmArea) : World :=
  match a.vmFile with
  | none => w
  | some file =>
    let ino := w.inode file
    { w with
      fCount := update w.fCount file (w.fCount file + 1)
      iWritecount := update w.iWritecount ino
        (w.iWritecount ino - if denyWrite a then 1 else 0)
      iMmap := update w.iMmap ino (linkAfter tmp (some mpnt) (w.iMmap ino)) }

def removeSharedVmStruct (w : World) (i : ℕ) (a : VmArea) : World :=
  match a.vmFile with
  | none => w
  | some file =>
    let ino := w.inode file
    { w with
      iWritecount := update w.iWritecount ino
        (w.iWritecount ino + if denyWrite a then 1 else 0)
      iMmap := update w.iMmap ino ((w.iMmap ino).erase i) }

/-- `fput` of the file of an area.  The parent has a reference too. -/
def fput (w : World) (a : VmArea) : World :=
  match a.vmFile with
  | none => w
  | some file => { w with fCount := update w.fCount file (w.fCount file - 1) }

/-! ### `kernel/fork.c` -/

/-- `mm_alloc`: a copy of the `mm_struct` of the parent. -/
def mmAlloc (w : World) (room : Bool) : Option Mm :=
  if room then
    some { w.parent with mapCount := 0, defFlags := 0, mmap := [], mmapAvl := .nil, mmapCache := none }
  else none

/-- `kmem_cache_alloc(vm_area_cachep, ...)`. -/
def allocArea (w : World) (ans : AreaAnswer) : Option ℕ := ans.tmp.filter fun i => !w.inUse i

def setInUse (w : World) (i : ℕ) (b : Bool) : World :=
  { w with inUse := update w.inUse i b }

/-- `*tmp = *mpnt` without `VM_LOCKED`. -/
def unlocked (a : VmArea) : VmArea := { a with vmFlags := a.vmFlags &&& ~~~VM_LOCKED }

/-- The loop of `dup_mmap`: whether it came to the end. -/
def dupLoop (ans : Answers) : List ℕ → World → Mm → Bool × World × Mm
  | [], w, mm => (true, w, mm)
  | mpnt :: l, w, mm =>
    match allocArea w (ans.area mpnt) with
    | none => (false, w, mm)
    | some tmp =>
      let a := unlocked (w.parent.vma mpnt)
      let w := shareFile (setInUse w tmp true) mpnt tmp a
      -- the area is linked in even if its pages could not be copied
      let mm := { mm with
        vma := update mm.vma tmp a
        mapCount := mm.mapCount + 1
        mmap := mm.mmap ++ [tmp] }
      if (ans.area mpnt).copied then dupLoop ans l w mm else (false, w, mm)

def dupMmap (ans : Answers) (w : World) (mm : Mm) : Bool × World × Mm :=
  match dupLoop ans w.parent.mmap w mm with
  | (true, w, mm) =>
    (true, w, if avlMinMapCount ≤ mm.mapCount then { mm with mmapAvl := buildMmapAvl mm } else mm)
  | r => r

/-- The loop of `exit_mmap`. -/
def exitLoop (v : ℕ → VmArea) : List ℕ → World → World
  | [], w => w
  | mpnt :: l, w =>
    exitLoop v l (setInUse (fput (removeSharedVmStruct w mpnt (v mpnt)) (v mpnt)) mpnt false)

/-- `mmput` of the last user: `exit_mmap`, and the `mm_struct` is freed. -/
def mmput (w : World) (mm : Mm) : World := exitLoop mm.vma mm.mmap w

/-- `copy_mm` without `CLONE_VM`: whether it succeeds. -/
def copyMm (ans : Answers) (w : World) : Bool × World :=
  match mmAlloc w ans.mmStruct with
  | none => (false, w)
  | some mm =>
    if !ans.pageTables then (false, mmput w mm)
    else
      match dupMmap ans w mm with
      | (true, w, mm) => (true, { w with child := some mm })
      | (false, w, mm) => (false, mmput w mm)

/-! ### The ring of an inode -/

section Ring
variable {i p : ℕ} {l : List ℕ}

theorem linkAfter_perm (h : p ∈ l) : (linkAfter i (some p) l).Perm (i :: l) := by
  induction l with
  | nil => cases h
  | cons x l ih =>
    unfold linkAfter
    by_cases hx : x = p
    · rw [if_pos hx]
      exact List.Perm.swap i x l
    · rw [if_neg hx]
      have hmem : p ∈ l := (mem_cons.mp h).resolve_left (Ne.symm hx)
      exact ((ih hmem).cons x).trans (List.Perm.swap i x l)

theorem filter_linkAfter {q : ℕ → Bool} (hq : q i = false) :
    (linkAfter i (some p) l).filter q = l.filter q := by
  induction l with
  | nil => rfl
  | cons x l ih =>
    unfold linkAfter
    by_cases hx : x = p
    · rw [if_pos hx, filter_cons, filter_cons, filter_cons, hq]
      rfl
    · rw [if_neg hx, filter_cons, filter_cons, ih]

end Ring

/-! ### What the functions do to a file -/

def onInode (w : World) (a : VmArea) (ino : ℕ) : Bool := a.vmFile.any fun f => w.inode f = ino

variable {w w₀ : World} {a : VmArea} {v : ℕ → VmArea} {l : List ℕ}

theorem onInode_iff {ino : ℕ} : onInode w a ino = true ↔ ∃ f, a.vmFile = some f ∧ w.inode f = ino := by
  unfold onInode
  cases a.vmFile <;> simp

section Effects
variable (w : World) (i p : ℕ) (a : VmArea)

structure SameRest (w w' : World) : Prop where
  parent : w'.parent = w.parent
  child : w'.child = w.child
  inUse : w'.inUse = w.inUse
  inode : w'.inode = w.inode

theorem shareFile_rest : SameRest w (shareFile w p i a) := by
  unfold shareFile
  split <;> exact ⟨rfl, rfl, rfl, rfl⟩

theorem shareFile_fCount (f : ℕ) :
    (shareFile w p i a).fCount f = w.fCount f + if a.vmFile = some f then 1 else 0 := by
  unfold shareFile
  cases a.vmFile with
  | none => simp
  | some file =>
    by_cases hf : f = file
    · simp [hf]
    · simp [update_of_ne hf, Ne.symm hf]

theorem shareFile_inode (ino : ℕ) :
    (shareFile w p i a).iWritecount ino =
        w.iWritecount ino - (if onInode w a ino && denyWrite a then 1 else 0) ∧
      (shareFile w p i a).iMmap ino =
        if onInode w a ino then linkAfter i (some p) (w.iMmap ino) else w.iMmap ino := by
  unfold shareFile onInode
  cases a.vmFile with
  | none => simp
  | some file =>
    by_cases hf : ino = w.inode file
    · simp [hf]
    · simp [update_of_ne hf, Ne.symm hf]

theorem removeShared_rest : SameRest w (removeSharedVmStruct w i a) := by
  unfold removeSharedVmStruct
  split <;> exact ⟨rfl, rfl, rfl, rfl⟩

theorem removeShared_fCount : (removeSharedVmStruct w i a).fCount = w.fCount := by
  unfold removeSharedVmStruct
  split <;> rfl

theorem removeShared_inode (ino : ℕ) :
    (removeSharedVmStruct w i a).iWritecount ino =
        w.iWritecount ino + (if onInode w a ino && denyWrite a then 1 else 0) ∧
      (removeSharedVmStruct w i a).iMmap ino =
        if onInode w a ino then (w.iMmap ino).erase i else w.iMmap ino := by
  unfold removeSharedVmStruct onInode
  cases a.vmFile with
  | none => simp
  | some file =>
    by_cases hf : ino = w.inode file
    · simp [hf]
    · simp [update_of_ne hf, Ne.symm hf]

theorem fput_fCount (f : ℕ) : (fput w a).fCount f = w.fCount f - if a.vmFile = some f then 1 else 0 := by
  unfold fput
  cases a.vmFile with
  | none => simp
  | some file =>
    by_cases hf : f = file
    · simp [hf]
    · simp [update_of_ne hf, Ne.symm hf]

theorem fput_rest : SameRest w (fput w a) ∧ (fput w a).iWritecount = w.iWritecount ∧
    (fput w a).iMmap = w.iMmap := by
  unfold fput
  split <;> exact ⟨⟨rfl, rfl, rfl, rfl⟩, rfl, rfl⟩

end Effects

/-! ### What a half-built child holds -/

/-- The world `w` is `w₀` with the areas `l`, with the fields `v`, added to the files they map. -/
structure Held (w₀ w : World) (v : ℕ → VmArea) (l : List ℕ) : Prop where
  parent : w.parent = w₀.parent
  inode : w.inode = w₀.inode
  child : w.child = w₀.child
  nodup : l.Nodup
  inUse : ∀ i, w.inUse i = (w₀.inUse i || decide (i ∈ l))
  fresh : ∀ i ∈ l, w₀.inUse i = false
  fCount : ∀ f, w.fCount f = w₀.fCount f + (l.countP fun i => (v i).vmFile = some f)
  iWritecount : ∀ ino, w.iWritecount ino =
    w₀.iWritecount ino - (l.countP fun i => onInode w₀ (v i) ino && denyWrite (v i))
  ringNodup : ∀ ino, (w.iMmap ino).Nodup
  ringOld : ∀ ino, (w.iMmap ino).filter (· ∉ l) = w₀.iMmap ino
  ringNew : ∀ ino, ∀ i ∈ l, i ∈ w.iMmap ino ↔ onInode w₀ (v i) ino = true

/-- The books before a fork. -/
structure Consistent (w : World) : Prop where
  books : w.parent.Books 0 0
  ringNodup : ∀ ino, (w.iMmap ino).Nodup
  ringUse : ∀ ino, ∀ i ∈ w.iMmap ino, w.inUse i = true
  ringParent : ∀ i ∈ w.parent.mmap, ∀ f, (w.parent.vma i).vmFile = some f → i ∈ w.iMmap (w.inode f)

theorem Held.start (h : Consistent w) (v : ℕ → VmArea) : Held w w v [] where
  parent := rfl
  inode := rfl
  child := rfl
  nodup := nodup_nil
  inUse i := by simp
  fresh i hi := absurd hi not_mem_nil
  fCount f := by simp
  iWritecount ino := by simp
  ringNodup := h.ringNodup
  ringOld ino := by simp
  ringNew ino i hi := absurd hi not_mem_nil

theorem countP_snoc_update {P : VmArea → Bool} {tmp : ℕ}
    (htmp : tmp ∉ l) : ((l ++ [tmp]).countP fun i => P (update v tmp a i)) =
      (l.countP fun i => P (v i)) + if P a then 1 else 0 := by
  have hcongr : (l.countP fun i => P (update v tmp a i)) = l.countP fun i => P (v i) := by
    apply countP_congr
    intro i hi
    have hne : i ≠ tmp := fun he => htmp (he ▸ hi)
    rw [update_of_ne hne]
  rw [countP_append, hcongr, countP_singleton, update_self]

section Step
variable {i mpnt tmp : ℕ}

theorem Held.of_free (h : Held w₀ w v l) (hfree : w.inUse i = false) : w₀.inUse i = false ∧ i ∉ l := by
  have huse := h.inUse i
  rwa [hfree, eq_comm, Bool.or_eq_false_iff, decide_eq_false_iff_not] at huse

section

variable (hw : Consistent w₀) (h : Held w₀ w v l)
include hw h

theorem Held.mem_ring (hi : i ∈ w₀.parent.mmap) {f : ℕ}
    (hf : (w₀.parent.vma i).vmFile = some f) : i ∈ w.iMmap (w₀.inode f) := by
  have hmem := hw.ringParent i hi f hf
  rw [← h.ringOld] at hmem
  exact (mem_filter.mp hmem).1

theorem Held.notMem_ring (hfree : w.inUse i = false) (ino : ℕ) : i ∉ w.iMmap ino := by
  obtain ⟨hfresh, hi⟩ := h.of_free hfree
  intro hmem
  have hold : i ∈ w₀.iMmap ino := by
    rw [← h.ringOld, mem_filter]
    exact ⟨hmem, by simpa using hi⟩
  rw [hw.ringUse ino i hold] at hfresh
  cases hfresh

theorem Held.share (hmp : mpnt ∈ w₀.parent.mmap)
    (hfree : w.inUse tmp = false) {a : VmArea} (ha : a.vmFile = (w₀.parent.vma mpnt).vmFile) :
    Held w₀ (shareFile (setInUse w tmp true) mpnt tmp a) (update v tmp a) (l ++ [tmp]) := by
  obtain ⟨hfresh, htmp⟩ := h.of_free hfree
  have hv : ∀ i ∈ l, update v tmp a i = v i := by
    intro i hi
    apply update_of_ne
    exact fun he => htmp (he ▸ hi)
  have hring := h.notMem_ring hw hfree
  have hon : ∀ ino, onInode (setInUse w tmp true) a ino = onInode w₀ a ino := by
    intro ino
    unfold onInode
    rw [show (setInUse w tmp true).inode = w₀.inode from h.inode]
  obtain ⟨hparent, hchild, hinuse, hinode⟩ := shareFile_rest (setInUse w tmp true) tmp mpnt a
  have hlink : ∀ ino, onInode w₀ a ino = true → (linkAfter tmp (some mpnt) (w.iMmap ino)).Perm
      (tmp :: w.iMmap ino) := by
    intro ino hino
    obtain ⟨f, hf, hfi⟩ := onInode_iff.mp hino
    apply linkAfter_perm
    rw [← hfi]
    exact h.mem_ring hw hmp (ha ▸ hf)
  have hlinked : ∀ ino, (shareFile (setInUse w tmp true) mpnt tmp a).iMmap ino =
      if onInode w₀ a ino then linkAfter tmp (some mpnt) (w.iMmap ino) else w.iMmap ino := by
    intro ino
    rw [(shareFile_inode ..).2, hon]
    rfl
  constructor
  · exact hparent.trans h.parent
  · exact hinode.trans h.inode
  · exact hchild.trans h.child
  · exact h.nodup.append (nodup_singleton tmp) (by simpa using htmp)
  · intro i
    rw [hinuse]
    by_cases hi : i = tmp
    · simp [setInUse, hi]
    · simp [setInUse, h.inUse, hi]
  · intro i hi
    obtain hi | rfl := mem_append.mp hi |>.imp_right mem_singleton.mp
    · exact h.fresh i hi
    · exact hfresh
  · intro f
    have hcount := countP_snoc_update (P := fun b => b.vmFile = some f) (v := v) (a := a) htmp
    rw [shareFile_fCount]
    simp only [setInUse, h.fCount, hcount, decide_eq_true_eq]
    push_cast
    ring
  · intro ino
    have hcount := countP_snoc_update (P := fun b => onInode w₀ b ino && denyWrite b) (v := v) (a := a) htmp
    rw [(shareFile_inode ..).1, hon]
    simp only [setInUse, h.iWritecount, hcount]
    push_cast
    ring
  · intro ino
    rw [hlinked]
    split_ifs with hino
    · rw [(hlink ino hino).nodup_iff]
      exact nodup_cons.mpr ⟨hring ino, h.ringNodup ino⟩
    · exact h.ringNodup ino
  · intro ino
    rw [hlinked]
    have hfilter : (w.iMmap ino).filter (· ∉ l ++ [tmp]) = w₀.iMmap ino := by
      rw [← h.ringOld ino]
      apply filter_congr
      intro x hx
      have hne : x ≠ tmp := fun he => hring ino (he ▸ hx)
      simp [hne]
    split_ifs with hino
    · rw [filter_linkAfter (by simp), hfilter]
    · exact hfilter
  · intro ino i hi
    rw [hlinked]
    obtain hi | rfl := mem_append.mp hi |>.imp_right mem_singleton.mp
    · have hne : i ≠ tmp := fun he => htmp (he ▸ hi)
      rw [hv i hi, ← h.ringNew ino i hi]
      split_ifs with hino
      · rw [(hlink ino hino).mem_iff, mem_cons, or_iff_right hne]
      · rfl
    · rw [update_self]
      split_ifs with hino
      · rw [(hlink ino hino).mem_iff]
        exact iff_of_true (mem_cons_self ..) hino
      · exact iff_of_false (hring ino) hino

end

theorem Held.unshare (h : Held w₀ w v (i :: l)) :
    Held w₀ (setInUse (fput (removeSharedVmStruct w i (v i)) (v i)) i false) v l := by
  set w' := setInUse (fput (removeSharedVmStruct w i (v i)) (v i)) i false
  obtain ⟨hi, hnodup⟩ := nodup_cons.mp h.nodup
  obtain ⟨hrest, hwc, hring⟩ := fput_rest (removeSharedVmStruct w i (v i)) (v i)
  have hrest' := removeShared_rest w i (v i)
  have hon : ∀ ino, onInode w (v i) ino = onInode w₀ (v i) ino := by
    intro ino
    unfold onInode
    rw [h.inode]
  have hring' : ∀ ino, w'.iMmap ino =
      if onInode w₀ (v i) ino then (w.iMmap ino).erase i else w.iMmap ino := by
    intro ino
    rw [← hon, ← (removeShared_inode w i (v i) ino).2]
    exact congrFun hring ino
  constructor
  · exact hrest.parent.trans (hrest'.parent.trans h.parent)
  · exact hrest.inode.trans (hrest'.inode.trans h.inode)
  · exact hrest.child.trans (hrest'.child.trans h.child)
  · exact hnodup
  · intro j
    have huse : w'.inUse =
        update w.inUse i false := by
      rw [← hrest'.inUse, ← hrest.inUse]
      rfl
    rw [huse]
    by_cases hj : j = i
    · rw [hj, update_self, h.fresh i (mem_cons_self ..)]
      simpa using hi
    · rw [update_of_ne hj, h.inUse]
      simp [hj]
  · exact fun j hj => h.fresh j (mem_cons_of_mem i hj)
  · intro f
    have hcount : w'.fCount f =
        w.fCount f - if (v i).vmFile = some f then 1 else 0 := by
      rw [← removeShared_fCount w i (v i)]
      exact fput_fCount _ _ _
    rw [hcount, h.fCount, countP_cons]
    simp only [decide_eq_true_eq]
    push_cast
    ring
  · intro ino
    have hcount : w'.iWritecount ino =
        w.iWritecount ino + if onInode w₀ (v i) ino && denyWrite (v i) then 1 else 0 := by
      rw [← hon, ← (removeShared_inode w i (v i) ino).1]
      exact congrFun hwc ino
    rw [hcount, h.iWritecount, countP_cons]
    push_cast
    ring
  · intro ino
    rw [hring']
    split_ifs
    · exact (h.ringNodup ino).erase i
    · exact h.ringNodup ino
  · intro ino
    rw [hring', ← h.ringOld ino]
    split_ifs with hino
    · rw [(h.ringNodup ino).erase_eq_filter, filter_filter]
      apply filter_congr
      intro x _
      by_cases hx : x = i <;> simp [hx]
    · have hnot : i ∉ w.iMmap ino := fun hmem => hino ((h.ringNew ino i (mem_cons_self ..)).mp hmem)
      apply filter_congr
      intro x hx
      have hne : x ≠ i := fun he => hnot (he ▸ hx)
      simp [hne]
  · intro ino j hj
    have hne : j ≠ i := fun he => hi (he ▸ hj)
    rw [hring', ← h.ringNew ino j (mem_cons_of_mem i hj)]
    split_ifs
    · rw [(h.ringNodup ino).mem_erase_iff, and_iff_right hne]
    · rfl

end Step

/-! ### The loops -/

/-- The `mm_struct` of the child when the areas `done` of the parent have been copied. -/
structure Built (w : World) (mm : Mm) (done : List ℕ) : Prop where
  areas : mm.areas = done.map fun i => unlocked (w.parent.vma i)
  mapCount : mm.mapCount = mm.mmap.length
  totalVm : mm.totalVm = w.parent.totalVm
  lockedVm : mm.lockedVm = w.parent.lockedVm
  mmapAvl : mm.mmapAvl = .nil

section Loops
variable {mm : Mm} {done : List ℕ} {tmp mpnt : ℕ}

theorem Built.snoc (h : Built w₀ mm done) (htmp : tmp ∉ mm.mmap) :
    Built w₀ { mm with
      vma := update mm.vma tmp (unlocked (w₀.parent.vma mpnt))
      mapCount := mm.mapCount + 1
      mmap := mm.mmap ++ [tmp] } (done ++ [mpnt]) where
  areas := by
    have hareas := h.areas
    unfold Mm.areas at hareas ⊢
    rw [map_append, map_update_of_notMem htmp, hareas, map_append]
    simp
  mapCount := by
    have hcount := h.mapCount
    simp only [length_append, length_singleton]
    omega
  __ := h

theorem dupLoop_spec (hw : Consistent w₀) (ans : Answers) :
    ∀ (l : List ℕ) {done : List ℕ} {w : World} {mm : Mm}, w₀.parent.mmap = done ++ l →
      Held w₀ w mm.vma mm.mmap → Built w₀ mm done →
      Held w₀ (dupLoop ans l w mm).2.1 (dupLoop ans l w mm).2.2.vma (dupLoop ans l w mm).2.2.mmap ∧
        ((dupLoop ans l w mm).1 = true → Built w₀ (dupLoop ans l w mm).2.2 w₀.parent.mmap)
  | [], done, w, mm, hl, hheld, hbuilt => by
    rw [append_nil] at hl
    rw [hl]
    exact ⟨hheld, fun _ => hbuilt⟩
  | mpnt :: l, done, w, mm, hl, hheld, hbuilt => by
    unfold dupLoop
    cases halloc : allocArea w (ans.area mpnt) with
    | none => exact ⟨hheld, fun h => absurd h (by simp)⟩
    | some tmp =>
      have hfree : w.inUse tmp = false := by simpa using (Option.filter_eq_some_iff.mp halloc).2
      have hmp : mpnt ∈ w₀.parent.mmap := by
        rw [hl]
        simp
      have hheld' := hheld.share hw hmp hfree (a := unlocked (w₀.parent.vma mpnt)) rfl
      have hbuilt' := @Built.snoc w₀ mm done tmp mpnt hbuilt (hheld.of_free hfree).2
      rw [← hheld.parent] at hheld' hbuilt'
      split_ifs
      · exact dupLoop_spec hw ans l (by rw [hl, append_assoc]; rfl) hheld' hbuilt'
      · exact ⟨hheld', fun h => absurd h (by simp)⟩

theorem exitLoop_spec {v : ℕ → VmArea} : ∀ (l : List ℕ) {w : World},
    Held w₀ w v l → Held w₀ (exitLoop v l w) v []
  | [], _, h => h
  | _ :: l, _, h => exitLoop_spec l h.unshare

end Loops

/-! ### Fork -/

structure Untouched (w w' : World) : Prop where
  parent : w'.parent = w.parent
  child : w'.child = w.child
  inUse : w'.inUse = w.inUse
  fCount : w'.fCount = w.fCount
  iWritecount : w'.iWritecount = w.iWritecount
  iMmap : w'.iMmap = w.iMmap

/-- The child has the areas of the parent, not locked, with totals and a tree of its own, and the files
have one more area for each that maps them. -/
structure Duplicated (w w' : World) (mm : Mm) : Prop where
  parent : w'.parent = w.parent
  child : w'.child = some mm
  areas : mm.areas = w.parent.areas.map unlocked
  mapCount : mm.mapCount = mm.mmap.length
  totalVm : mm.totalVm = (mm.areas.map (·.pages)).sum
  lockedVm : mm.lockedVm = (mm.areas.map (·.lockedPages)).sum
  tree : TreeOk mm.mmapAvl mm.mmap
  fCount : ∀ f, w'.fCount f = w.fCount f + (mm.mmap.countP fun i => (mm.vma i).vmFile = some f)
  iWritecount : ∀ ino, w'.iWritecount ino =
    w.iWritecount ino - (mm.mmap.countP fun i => onInode w (mm.vma i) ino && denyWrite (mm.vma i))
  iMmap : ∀ ino, (w'.iMmap ino).Perm
    (w.iMmap ino ++ mm.mmap.filter fun i => onInode w (mm.vma i) ino)

def Exact (w : World) (r : Bool × World) : Prop :=
  if r.1 then ∃ mm, Duplicated w r.2 mm else Untouched w r.2

theorem Held.untouched (h : Held w₀ w v []) : Untouched w₀ w where
  __ := h
  inUse := funext fun i => by simpa using h.inUse i
  fCount := funext fun f => by simpa using h.fCount f
  iWritecount := funext fun ino => by simpa using h.iWritecount ino
  iMmap := funext fun ino => by simpa using h.ringOld ino

theorem Held.ring_perm (hw : Consistent w₀) (h : Held w₀ w v l) (ino : ℕ) :
    (w.iMmap ino).Perm (w₀.iMmap ino ++ l.filter fun i => onInode w₀ (v i) ino) := by
  have hdis : ∀ x ∈ w₀.iMmap ino, x ∉ l := by
    intro x hx hl
    have huse := hw.ringUse ino x hx
    rw [h.fresh x hl] at huse
    cases huse
  rw [perm_ext_iff_of_nodup (h.ringNodup ino)]
  · intro x
    rw [mem_append, mem_filter]
    by_cases hx : x ∈ l
    · rw [h.ringNew ino x hx]
      simp only [hx, true_and]
      exact (or_iff_right fun hmem => hdis x hmem hx).symm
    · rw [← h.ringOld ino, mem_filter]
      simp [hx]
  · refine (hw.ringNodup ino).append (h.nodup.filter _) ?_
    intro x hx hx'
    exact hdis x hx (mem_filter.mp hx').1

theorem unlocked_locked (a : VmArea) : (unlocked a).locked = false := by
  have hmask : a.vmFlags &&& ~~~VM_LOCKED &&& VM_LOCKED = 0 := by
    rw [BitVec.and_assoc, show ~~~VM_LOCKED &&& VM_LOCKED = 0#32 by decide]
    exact BitVec.and_zero
  unfold VmArea.locked unlocked
  rw [hmask]
  rfl

theorem lockedPages_unlocked (as : List VmArea) : ((as.map unlocked).map (·.lockedPages)).sum = 0 := by
  rw [map_map]
  apply sum_eq_zero
  intro n hn
  obtain ⟨a, -, rfl⟩ := mem_map.mp hn
  change (unlocked a).lockedPages = 0
  unfold VmArea.lockedPages
  rw [unlocked_locked]
  rfl

theorem ordered_of_areas {v' : ℕ → VmArea} {l' : List ℕ} (h : Ordered v l)
    (hareas : l'.map v' = l.map fun i => unlocked (v i)) : Ordered v' l' := by
  unfold Ordered at *
  have hmap : ∀ (u : ℕ → VmArea) (m : List ℕ),
      ((∀ i ∈ m, (u i).vmStart < (u i).vmEnd) ∧ m.Pairwise fun i j => (u i).vmEnd ≤ (u j).vmStart) ↔
        (∀ a ∈ m.map u, a.vmStart < a.vmEnd) ∧ (m.map u).Pairwise fun a b => a.vmEnd ≤ b.vmStart := by
    intro u m
    rw [pairwise_map, forall_mem_map]
  rw [hmap, hareas, ← hmap]
  exact h

theorem exists_tree {mm : Mm} (hord : Ordered mm.vma mm.mmap) (hnil : mm.mmapAvl = .nil) :
    ∃ t, (if avlMinMapCount ≤ mm.mapCount then { mm with mmapAvl := buildMmapAvl mm } else mm) =
      { mm with mmapAvl := t } ∧ TreeOk t mm.mmap := by
  by_cases hmany : avlMinMapCount ≤ mm.mapCount
  · exact ⟨_, if_pos hmany, buildMmapAvl_treeOk hord⟩
  · rw [if_neg hmany]
    exact ⟨.nil, by rw [← hnil], TreeOk.nil _⟩

section
variable (ans : Answers)

theorem copyMm_cases (h : Consistent w) :
    ((copyMm ans w).1 = false ∧ Untouched w (copyMm ans w).2) ∨
      ∃ w' mm, copyMm ans w = (true, { w' with child := some mm }) ∧ Held w w' mm.vma mm.mmap ∧
        mm.areas = w.parent.areas.map unlocked ∧ mm.mapCount = mm.mmap.length ∧
        mm.totalVm = w.parent.totalVm ∧ mm.lockedVm = w.parent.lockedVm ∧
        TreeOk mm.mmapAvl mm.mmap := by
  unfold copyMm mmAlloc
  by_cases hmm : ans.mmStruct = true
  swap
  · rw [if_neg hmm]
    exact .inl ⟨rfl, (Held.start h w.parent.vma).untouched⟩
  rw [if_pos hmm]
  dsimp only
  by_cases hpt : ans.pageTables = true
  swap
  · rw [if_pos (by simpa using hpt)]
    exact .inl ⟨rfl, (Held.start h w.parent.vma).untouched⟩
  rw [if_neg (by simpa using hpt)]
  unfold dupMmap
  obtain ⟨hheld, hbuilt⟩ := @dupLoop_spec w h ans w.parent.mmap [] w { w.parent with
    mapCount := 0, defFlags := 0, mmap := [], mmapAvl := .nil, mmapCache := none } rfl
    (Held.start h _) ⟨rfl, rfl, rfl, rfl, rfl⟩
  generalize dupLoop ans w.parent.mmap w _ = r at hheld hbuilt ⊢
  obtain ⟨ok, w', mm⟩ := r
  cases ok with
  | false => exact .inl ⟨rfl, (exitLoop_spec _ hheld).untouched⟩
  | true =>
    have hb := hbuilt rfl
    have hareas : mm.areas = w.parent.areas.map unlocked := by
      rw [hb.areas]
      unfold Mm.areas
      rw [map_map]
      rfl
    have hord : Ordered mm.vma mm.mmap := ordered_of_areas h.books.wellFormed.ordered hb.areas
    obtain ⟨t, ht, hok⟩ := exists_tree hord hb.mmapAvl
    refine .inr ⟨w', { mm with mmapAvl := t }, ?_, hheld, hareas, hb.mapCount, hb.totalVm, hb.lockedVm, hok⟩
    rw [← ht]

/-- Everything that is asked for is there: each area gets a structure of its own that is not in use, and its pages are copied. -/
def AreasServed (w : World) (l : List ℕ) : Prop :=
  (∃ ts : List ℕ, (l.map fun i => (ans.area i).tmp) = ts.map some ∧ ts.Nodup ∧ ∀ t ∈ ts, w.inUse t = false) ∧
    ∀ i ∈ l, (ans.area i).copied = true

theorem allocArea_eq_some {tmp : ℕ} {x : AreaAnswer} : allocArea w x = some tmp ↔ x.tmp = some tmp ∧ w.inUse tmp = false := by
  rw [allocArea, Option.filter_eq_some_iff]
  simp

theorem areasServed_cons {w' : World} {i tmp : ℕ} (htmp : allocArea w (ans.area i) = some tmp)
    (hw' : w'.inUse = update w.inUse tmp true) :
    AreasServed ans w (i :: l) ↔ (ans.area i).copied = true ∧ AreasServed ans w' l := by
  obtain ⟨hans, hfree⟩ := allocArea_eq_some.mp htmp
  have hnew : ∀ t, w'.inUse t = false ↔ t ≠ tmp ∧ w.inUse t = false := by
    intro t
    rw [hw', update_apply]
    split_ifs with ht <;> simp [ht]
  unfold AreasServed
  simp only [map_cons, hans, forall_mem_cons, hnew]
  constructor
  · rintro ⟨⟨ts, hts, hnodup, huse⟩, hcopied, hrest⟩
    obtain ⟨t, ts, rfl, ht, hmap⟩ := map_eq_cons_iff.mp hts.symm
    cases ht
    obtain ⟨hnot, hnodup⟩ := nodup_cons.mp hnodup
    exact ⟨hcopied, ⟨ts, hmap.symm, hnodup, fun t ht =>
      ⟨fun he => hnot (he ▸ ht), huse t (mem_cons_of_mem _ ht)⟩⟩, hrest⟩
  · rintro ⟨hcopied, ⟨ts, hts, hnodup, huse⟩, hrest⟩
    exact ⟨⟨tmp :: ts, by rw [hts, map_cons], nodup_cons.mpr ⟨fun ht => (huse tmp ht).1 rfl, hnodup⟩,
      forall_mem_cons.mpr ⟨hfree, fun t ht => (huse t ht).2⟩⟩, hcopied, hrest⟩

theorem dupLoop_iff : ∀ (l : List ℕ) (w : World) (mm : Mm), (dupLoop ans l w mm).1 = true ↔ AreasServed ans w l
  | [], w, mm => iff_of_true rfl ⟨⟨[], rfl, nodup_nil, by simp⟩, by simp⟩
  | i :: l, w, mm => by
    unfold dupLoop
    cases htmp : allocArea w (ans.area i) with
    | none =>
      refine iff_of_false Bool.false_ne_true fun h => ?_
      obtain ⟨⟨ts, hts, -, huse⟩, -⟩ := h
      obtain ⟨t, ts, rfl, ht, -⟩ := map_eq_cons_iff.mp hts.symm
      have := allocArea_eq_some.mpr ⟨ht.symm, huse t mem_cons_self⟩
      exact absurd (htmp.symm.trans this) (Option.some_ne_none t).symm
    | some tmp =>
      have huse := (shareFile_rest (setInUse w tmp true) tmp i (unlocked (w.parent.vma i))).inUse
      rw [areasServed_cons ans htmp huse]
      dsimp only
      split_ifs with hcopied
      · rw [dupLoop_iff l, and_iff_right hcopied]
      · exact iff_of_false id fun h => hcopied h.1

theorem copyMm_iff : (copyMm ans w).1 = true ↔
    ans.mmStruct = true ∧ ans.pageTables = true ∧ AreasServed ans w w.parent.mmap := by
  unfold copyMm mmAlloc
  by_cases hmm : ans.mmStruct = true <;> by_cases hpt : ans.pageTables = true <;> simp only [hmm, hpt]
  · rw [← dupLoop_iff ans _ w { w.parent with mapCount := 0, defFlags := 0, mmap := [], mmapAvl := .nil, mmapCache := none }]
    simp only [if_true, Bool.not_true, Bool.false_eq_true, if_false, true_and]
    unfold dupMmap
    generalize dupLoop ans w.parent.mmap w _ = r
    obtain ⟨ok, w', mm⟩ := r
    cases ok <;> simp
  all_goals simp

/-- **Fork.**  The outcome is all or nothing exactly if something that it asks for is not there or the parent has no locked
pages. -/
theorem fork_iff (h : Consistent w) : Exact w (copyMm ans w) ↔
    (ans.mmStruct = true ∧ ans.pageTables = true ∧ AreasServed ans w w.parent.mmap → w.parent.lockedVm = 0) := by
  rw [← copyMm_iff]
  unfold Exact
  obtain ⟨hfail, huntouched⟩ | ⟨w', mm, hcopy, hheld, hareas, hcount, htotal, hlocked, htree⟩ :=
    copyMm_cases ans h
  · rw [hfail, if_neg (by decide)]
    exact iff_of_true huntouched (fun hf => absurd hf (by decide))
  rw [hcopy]
  simp only [if_true, true_implies]
  constructor
  · rintro ⟨mm', hdup⟩
    obtain rfl : mm = mm' := Option.some.inj hdup.child
    rw [← hlocked, hdup.lockedVm, hareas, lockedPages_unlocked]
  · intro hzero
    have hring := hheld.ring_perm h
    refine ⟨mm, hheld.parent, rfl, hareas, hcount, ?_, ?_, htree, hheld.fCount, hheld.iWritecount, hring⟩
    · have htot := h.books.totalVm
      rw [add_zero] at htot
      rw [htotal, htot, hareas, map_map]
      rfl
    · rw [hlocked, hzero, hareas, lockedPages_unlocked]

end

/-- A parent with these areas, all of inode 0 if they map a file; the structures from 100 on are free. -/
def parentOf (as : List VmArea) : World where
  parent := Mm.ofAreas as
  child := none
  inUse i := i < 100
  fCount _ := as.length
  iWritecount _ := 0
  iMmap ino := if ino = 0 then List.range as.length else []
  inode _ := 0

theorem parentOf_consistent {as : List VmArea} (hbooks : (Mm.ofAreas as).Books 0 0)
    (hlen : as.length ≤ 100) : Consistent (parentOf as) where
  books := hbooks
  ringNodup ino := by
    change (if ino = 0 then List.range as.length else []).Nodup
    split_ifs
    · exact nodup_range
    · exact nodup_nil
  ringUse ino i hi := by
    change i ∈ (if ino = 0 then List.range as.length else []) at hi
    split_ifs at hi
    · exact decide_eq_true ((mem_range.mp hi).trans_le hlen)
    · cases hi
  ringParent _ hi _ _ := hi

def plenty : Answers := ⟨true, true, fun i => ⟨some (i + 100), true⟩⟩

def program : World :=
  parentOf [⟨0x1000, 0x3000, 5, 0x875, some 1, 0, some 7, 0⟩, ⟨0x3000, 0x4000, 3, 0x73, none, 0, some 7, 0⟩]

theorem fork_iff_program : (copyMm plenty program).1 = true ∧ Exact program (copyMm plenty program) :=
  ⟨by decide, (fork_iff plenty (parentOf_consistent
    ⟨by decide, by decide, by decide, by decide, by decide, by decide⟩ (by decide))).mpr fun _ => by decide⟩

def lockedPage : World := parentOf [⟨0x1000, 0x2000, 3, 0x2073, none, 0, none, 0⟩]

/-- **A count without pages.**  The parent has locked one page; the child has none locked, and counts
one. -/
theorem child_counts_locked :
    Consistent lockedPage ∧ (copyMm plenty lockedPage).1 = true ∧ (copyMm plenty lockedPage).2.child.map
        (fun mm => (mm.lockedVm, (mm.areas.map (·.lockedPages)).sum)) = some (1, 0) ∧
      ¬ Exact lockedPage (copyMm plenty lockedPage) := by
  have hok : (copyMm plenty lockedPage).1 = true := by decide
  have hchild : (copyMm plenty lockedPage).2.child.map
      (fun mm => (mm.lockedVm, (mm.areas.map (·.lockedPages)).sum)) = some (1, 0) := by decide
  have hcon : Consistent lockedPage := parentOf_consistent
    ⟨by decide, by decide, by decide, by decide, by decide, by decide⟩ (by decide)
  refine ⟨hcon, hok, hchild, fun hexact => ?_⟩
  unfold Exact at hexact
  rw [if_pos hok] at hexact
  obtain ⟨mm, hdup⟩ := hexact
  rw [hdup.child, Option.map_some, Option.some.injEq, Prod.mk.injEq, hdup.lockedVm] at hchild
  cases hchild.1.symm.trans hchild.2

end I370Linux.ForkMm
