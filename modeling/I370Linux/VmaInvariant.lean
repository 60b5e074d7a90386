import I370Linux.Vma

/-! # Invariants of the areas of an address space

`Mm.WellFormed` says that the list is strictly sorted and disjoint and that the tree is absent or
holds the listed areas.  The lookups then find the place of an address in the list whichever way
they go, and linking an area in or out acts on the list alone, with a tree that follows it. -/

namespace I370Linux.Vma

open MmapAvl MmapAvl.AvlTree
open List (cons_append getLast?_cons mem_append mem_cons mem_cons_self nodup_cons)

/-! ### Order -/

def Ordered (v : ℕ → VmArea) (l : List ℕ) : Prop :=
  (∀ i ∈ l, (v i).vmStart < (v i).vmEnd) ∧ l.Pairwise fun i j => (v i).vmEnd ≤ (v j).vmStart

instance (v : ℕ → VmArea) (l : List ℕ) : Decidable (Ordered v l) :=
  inferInstanceAs (Decidable (_ ∧ _))

section Order

variable {v w : ℕ → VmArea} {l A B : List ℕ} {i : ℕ}

theorem ordered_append : Ordered v (A ++ B) ↔
    Ordered v A ∧ Ordered v B ∧ ∀ a ∈ A, ∀ b ∈ B, (v a).vmEnd ≤ (v b).vmStart := by
  simp only [Ordered, mem_append, List.pairwise_append, or_imp, forall_and]
  tauto

theorem ordered_cons : Ordered v (i :: B) ↔
    (v i).vmStart < (v i).vmEnd ∧ Ordered v B ∧ ∀ b ∈ B, (v i).vmEnd ≤ (v b).vmStart := by
  simp only [Ordered, mem_cons, List.pairwise_cons, or_imp, forall_and, forall_eq]
  tauto

theorem ordered_insert : Ordered v (A ++ i :: B) ↔
    Ordered v (A ++ B) ∧ (v i).vmStart < (v i).vmEnd ∧
      (∀ a ∈ A, (v a).vmEnd ≤ (v i).vmStart) ∧ ∀ b ∈ B, (v i).vmEnd ≤ (v b).vmStart := by
  simp only [ordered_append, ordered_cons, mem_cons, or_imp, forall_and, forall_eq]
  tauto

theorem Ordered.congr (h : Ordered v l) (hvw : ∀ i ∈ l, w i = v i) : Ordered w l := by
  refine ⟨fun i hi => by rw [hvw i hi]; exact h.1 i hi, ?_⟩
  exact h.2.imp_of_mem fun hi hj hij => by rwa [hvw _ hi, hvw _ hj]

theorem Ordered.sublist (h : Ordered v l) (hA : A.Sublist l) : Ordered v A :=
  ⟨fun i hi => h.1 i (hA.subset hi), h.2.sublist hA⟩

theorem Ordered.keys (h : Ordered v l) : l.Pairwise fun i j => (v i).vmEnd < (v j).vmEnd :=
  h.2.imp_of_mem fun _ hj hij => lt_of_le_of_lt hij (h.1 _ hj)

theorem Ordered.nodup (h : Ordered v l) : l.Nodup :=
  h.keys.imp fun hij he => by rw [he] at hij; exact lt_irrefl _ hij

theorem Ordered.notMem (h : Ordered v (A ++ i :: B)) : i ∉ A ∧ i ∉ B := by
  have hn := h.nodup
  rw [List.nodup_append, nodup_cons] at hn
  exact ⟨fun hi => hn.2.2 i hi i (mem_cons_self ..) rfl, hn.2.1.1⟩

end Order

/-! ### The tree -/

/-- The tree `t` for the list `l`: absent, or an AVL tree of exactly the listed areas in order. -/
def TreeOk (t : AvlTree ℕ) (l : List ℕ) : Prop := (t = nil ∨ t.inorder = l) ∧ t.Balanced

instance (t : AvlTree ℕ) (l : List ℕ) : Decidable (TreeOk t l) :=
  inferInstanceAs (Decidable (_ ∧ _))

/-- The list is sorted and disjoint and the tree, if there is one, holds the listed areas. -/
structure Mm.WellFormed (mm : Mm) : Prop where
  ordered : Ordered mm.vma mm.mmap
  tree : TreeOk mm.mmapAvl mm.mmap

instance (mm : Mm) : Decidable mm.WellFormed :=
  decidable_of_iff (Ordered mm.vma mm.mmap ∧ TreeOk mm.mmapAvl mm.mmap)
    ⟨fun h => ⟨h.1, h.2⟩, fun h => ⟨h.ordered, h.tree⟩⟩

theorem TreeOk.nil (l : List ℕ) : TreeOk AvlTree.nil l := ⟨Or.inl rfl, trivial⟩

theorem TreeOk.inorder_eq {t : AvlTree ℕ} {l : List ℕ} (h : TreeOk t l) (ht : t ≠ AvlTree.nil) :
    t.inorder = l :=
  h.1.resolve_left ht

/-! ### Links in the list -/

section Links

variable {A B : List ℕ} {i : ℕ}

theorem getLast?_cons_of_notMem {a p : ℕ} (ha : a ∉ A) (hp : (a :: A).getLast? = some p) :
    (A = [] ∧ p = a) ∨ (A.getLast? = some p ∧ a ≠ p) := by
  cases A with
  | nil => exact .inl ⟨rfl, by simpa using hp.symm⟩
  | cons b A =>
    rw [List.getLast?_cons_cons] at hp
    exact .inr ⟨hp, fun h => ha (h ▸ List.mem_of_getLast? hp)⟩

theorem linkAfter_getLast? (h : (A ++ B).Nodup) : linkAfter i A.getLast? (A ++ B) = A ++ i :: B := by
  induction A with
  | nil => cases B <;> rfl
  | cons a A ih =>
    rw [cons_append, nodup_cons] at h
    obtain ⟨p, hp⟩ : ∃ p, (a :: A).getLast? = some p := ⟨_, getLast?_cons⟩
    rw [hp, cons_append, linkAfter]
    rcases getLast?_cons_of_notMem (fun ha => h.1 (List.mem_append_left _ ha)) hp with
      ⟨rfl, rfl⟩ | ⟨hp', hne⟩
    · rw [if_pos rfl]
      rfl
    · rw [if_neg hne, ← hp', ih h.2]
      rfl

theorem vmNext_getLast? (h : (A ++ B).Nodup) : vmNext (A ++ B) A.getLast? = B := by
  induction A with
  | nil => rfl
  | cons a A ih =>
    rw [cons_append, nodup_cons] at h
    obtain ⟨p, hp⟩ : ∃ p, (a :: A).getLast? = some p := ⟨_, getLast?_cons⟩
    rw [hp, cons_append, vmNext]
    rcases getLast?_cons_of_notMem (fun ha => h.1 (List.mem_append_left _ ha)) hp with
      ⟨rfl, rfl⟩ | ⟨hp', hne⟩
    · simp
    · rw [List.dropWhile_cons_of_pos (by simpa using hne)]
      rw [hp'] at ih
      exact ih h.2

theorem vmNext_some (h : i ∉ A) : vmNext (A ++ i :: B) (some i) = B := by
  rw [vmNext, List.dropWhile_append_of_pos]
  · simp
  · intro a ha
    have hai : a ≠ i := fun hai => h (hai ▸ ha)
    simpa using hai

theorem kmemCacheAlloc_notMem (mm : Mm) (k : ℕ) : mm.kmemCacheAlloc + k ∉ mm.mmap := by
  have hle : ∀ (l : List ℕ), ∀ i ∈ l, i ≤ l.foldr max 0 := by
    intro l
    induction l with
    | nil => simp
    | cons a l ih =>
      intro i hi
      obtain rfl | hi := mem_cons.mp hi
      · exact le_max_left _ _
      · exact le_trans (ih i hi) (le_max_right _ _)
  intro h
  have := hle _ _ h
  rw [Mm.kmemCacheAlloc] at this
  omega

end Links

/-! ### Lookup -/

section Lookup

variable {v : ℕ → VmArea} {mm : Mm} (addr : ℕ)

/-- `i` is the first area of the list that ends above `addr`, and `A` the areas before it. -/
structure FirstAbove (v : ℕ → VmArea) (addr : ℕ) (l A : List ℕ) (i : ℕ) (B : List ℕ) : Prop where
  list : l = A ++ i :: B
  below : ∀ a ∈ A, (v a).vmEnd ≤ addr
  above : addr < (v i).vmEnd

variable {i : ℕ} {t : AvlTree ℕ}

theorem FirstAbove.find? {l A B : List ℕ} (h : FirstAbove v addr l A i B) :
    l.find? (fun i => addr < (v i).vmEnd) = some i := by
  rw [h.list, List.find?_append, List.find?_eq_none.mpr]
  · simp [h.above]
  · exact fun a ha => by simpa using h.below a ha

theorem rightmost_eq (prev : Option ℕ) (t : AvlTree ℕ) : rightmost prev t = t.inorder.getLast?.or prev := by
  induction t generalizing prev with
  | nil => rfl
  | node l i h r _ ihr =>
    rw [rightmost, ihr, inorder_node, List.getLast?_append, getLast?_cons]
    cases r.inorder.getLast? <;> simp

theorem walkPrev_spec (prev : Option ℕ) (l : List ℕ) :
    ((∀ i ∈ l, (v i).vmEnd ≤ addr) ∧ (walkPrev v addr prev l).1 = none) ∨
    ∃ A i B, FirstAbove v addr l A i B ∧ walkPrev v addr prev l = (some i, A.getLast?.or prev) := by
  induction l generalizing prev with
  | nil => exact .inl ⟨by simp, rfl⟩
  | cons j l ih =>
    rw [walkPrev]
    split
    · next hj =>
      obtain ⟨hall, hw⟩ | ⟨A, i, B, hf, hw⟩ := ih (some j)
      · exact .inl ⟨by simpa using ⟨hj, hall⟩, hw⟩
      · refine .inr ⟨j :: A, i, B, ⟨by rw [hf.list]; rfl, by simpa using ⟨hj, hf.below⟩, hf.above⟩, ?_⟩
        rw [hw, getLast?_cons]
        cases A.getLast? <;> simp
    · next hj => exact .inr ⟨[], j, l, ⟨rfl, by simp, by omega⟩, by simp⟩

theorem treeFindPrev_spec (ht : Ordered v t.inorder)
    (vma : Option (AvlTree ℕ × ℕ)) (lastTurnRight prev : Option ℕ) :
    ((∀ i ∈ t.inorder, (v i).vmEnd ≤ addr) ∧
      treeFindPrev v addr t vma lastTurnRight prev = (vma, prev)) ∨
    ∃ A i B l p, FirstAbove v addr t.inorder A i B ∧
      treeFindPrev v addr t vma lastTurnRight prev = (some (l, i), p) ∧
      rightmost p l = A.getLast?.or lastTurnRight := by
  induction t generalizing vma lastTurnRight prev with
  | nil => exact .inl ⟨by simp, rfl⟩
  | node l x h r ihl ihr =>
    rw [inorder_node] at ht ⊢
    obtain ⟨hol, hxr, hlx⟩ := ordered_append.mp ht
    obtain ⟨hx, hor, -⟩ := ordered_cons.mp hxr
    have hlx' : ∀ a ∈ l.inorder, (v a).vmEnd ≤ (v x).vmStart := fun a ha => hlx a ha x (mem_cons_self ..)
    rw [treeFindPrev]
    split
    · next hxe =>
      split
      · next hxs =>
        exact .inr ⟨l.inorder, x, r.inorder, l, _,
          ⟨rfl, fun a ha => le_trans (hlx' a ha) hxs, hxe⟩, rfl, rightmost_eq _ _⟩
      rcases ihl hol (some (l, x)) lastTurnRight lastTurnRight with
        ⟨hall, hw⟩ | ⟨A, i, B, l', p, hf, hw, hp⟩
      · exact .inr ⟨l.inorder, x, r.inorder, l, _, ⟨rfl, hall, hxe⟩, hw, rightmost_eq _ _⟩
      · exact .inr ⟨A, i, B ++ x :: r.inorder, l', p, ⟨by rw [hf.list]; simp, hf.below, hf.above⟩, hw, hp⟩
    · next hxe =>
      have hl : ∀ a ∈ l.inorder, (v a).vmEnd ≤ addr := fun a ha => by
        have := hlx' a ha
        omega
      obtain ⟨hall, hw⟩ | ⟨A, i, B, l', p, hf, hw, hp⟩ := ihr hor vma (some x) prev
      · refine .inl ⟨fun i hi => ?_, hw⟩
        obtain hi | hi := mem_append.mp hi
        · exact hl i hi
        · obtain rfl | hi := mem_cons.mp hi
          · omega
          · exact hall i hi
      · refine .inr ⟨l.inorder ++ x :: A, i, B, l', p, ⟨by rw [hf.list]; simp, ?_, hf.above⟩, hw, ?_⟩
        · intro a ha
          obtain ha | ha := mem_append.mp ha
          · exact hl a ha
          · obtain rfl | ha := mem_cons.mp ha
            · omega
            · exact hf.below a ha
        · rw [hp, List.getLast?_append, getLast?_cons]
          cases A.getLast? <;> simp

theorem treeFind_spec (ht : Ordered v t.inorder) (vma : Option ℕ) :
    ((∀ i ∈ t.inorder, (v i).vmEnd ≤ addr) ∧ treeFind v addr t vma = vma) ∨
    ∃ A i B, FirstAbove v addr t.inorder A i B ∧ treeFind v addr t vma = some i := by
  -- the walk is that of `find_vma_prev` without the predecessor
  have hwalk : ∀ (t : AvlTree ℕ) (best : Option (AvlTree ℕ × ℕ)) (q p : Option ℕ),
      treeFind v addr t (best.map (·.2)) = (treeFindPrev v addr t best q p).1.map (·.2) := by
    intro t
    induction t with
    | nil => exact fun _ _ _ => rfl
    | node l x h r ihl ihr =>
      intro best q p
      rw [treeFind, treeFindPrev]
      split_ifs
      · rfl
      · exact ihl (some (l, x)) q q
      · exact ihr best (some x) p
  have h := hwalk t (vma.map fun i => (nil, i)) none none
  rw [show (vma.map fun i => ((nil : AvlTree ℕ), i)).map (·.2) = vma by cases vma <;> rfl] at h
  rcases treeFindPrev_spec addr ht (vma.map fun i => (nil, i)) none none with
    ⟨hall, hw⟩ | ⟨A, i, B, l, p, hf, hw, -⟩
  · rw [hw] at h
    exact .inl ⟨hall, by rw [h]; cases vma <;> rfl⟩
  · rw [hw] at h
    exact .inr ⟨A, i, B, hf, h⟩

/-- **`find_vma_prev`** finds the first area that ends above `addr`, with its predecessor. -/
theorem findVmaPrev_spec (h : mm.WellFormed) :
    ((∀ i ∈ mm.mmap, (mm.vma i).vmEnd ≤ addr) ∧ (findVmaPrev mm addr).1 = none) ∨
    ∃ A i B, FirstAbove mm.vma addr mm.mmap A i B ∧ findVmaPrev mm addr = (some i, A.getLast?) := by
  rw [findVmaPrev]
  split
  · simpa using walkPrev_spec (v := mm.vma) addr none mm.mmap
  · next ht =>
    have hin := h.tree.inorder_eq ht
    rcases treeFindPrev_spec addr (hin ▸ h.ordered) none none none with
      ⟨hall, hw⟩ | ⟨A, i, B, l, p, hf, hw, hp⟩
    · rw [hw]
      exact .inl ⟨hin ▸ hall, rfl⟩
    · rw [hw]
      refine .inr ⟨A, i, B, hin ▸ hf, ?_⟩
      show (some i, rightmost p l) = _
      rw [hp, Option.or_none]

theorem lookupVma_spec (h : mm.WellFormed) :
    lookupVma mm addr = mm.mmap.find? (fun i => addr < (mm.vma i).vmEnd) := by
  rw [lookupVma]
  split
  · rfl
  · next ht =>
    have hin := h.tree.inorder_eq ht
    obtain ⟨hall, hw⟩ | ⟨A, i, B, hf, hw⟩ := treeFind_spec addr (hin ▸ h.ordered) none
    · rw [hw, eq_comm, List.find?_eq_none]
      exact fun i hi => by simpa using hall i (hin ▸ hi)
    · rw [hw, ← hin, hf.find?]

theorem find?_of_contains (h : Ordered mm.vma mm.mmap) (hi : i ∈ mm.mmap)
    (hc : (mm.vma i).Contains addr) : mm.mmap.find? (fun i => addr < (mm.vma i).vmEnd) = some i := by
  obtain ⟨A, B, hl⟩ := List.append_of_mem hi
  rw [hl] at h
  have hA := (ordered_insert.mp h).2.2.1
  exact FirstAbove.find? addr ⟨hl, fun a ha => le_trans (hA a ha) hc.1, hc.2⟩

theorem findVma_spec (h : mm.WellFormed) (hcache : ∀ i ∈ mm.mmapCache, i ∈ mm.mmap) :
    (findVma mm addr).1 = mm.mmap.find? (fun i => addr < (mm.vma i).vmEnd) ∧
    ∃ c, (findVma mm addr).2 = { mm with mmapCache := c } ∧ ∀ i ∈ c, i ∈ mm.mmap := by
  rw [findVma]
  split
  · next i hi =>
    obtain ⟨hi, hc⟩ := Option.filter_eq_some_iff.mp hi
    rw [find?_of_contains addr h.ordered (hcache i hi) (of_decide_eq_true hc)]
    exact ⟨rfl, mm.mmapCache, rfl, hcache⟩
  · rw [lookupVma_spec addr h]
    split
    · next i hi =>
      rw [hi]
      refine ⟨rfl, some i, rfl, ?_⟩
      rintro j ⟨⟩
      exact List.mem_of_find?_eq_some hi
    · next hi =>
      rw [hi]
      exact ⟨rfl, mm.mmapCache, rfl, hcache⟩

/-- **The lookups agree.** Out of the cache, the list or the tree, `find_vma` gives the first area that ends above `addr`,
and `find_vma_prev` the same with the one before it. -/
theorem lookups_agree (h : mm.WellFormed) (hcache : ∀ i ∈ mm.mmapCache, i ∈ mm.mmap) :
    (findVma mm addr).1 = mm.mmap.find? (fun i => addr < (mm.vma i).vmEnd) ∧
    (findVmaPrev mm addr).1 = (findVma mm addr).1 ∧
    ∀ i, (findVma mm addr).1 = some i →
      ∃ A B, mm.mmap = A ++ i :: B ∧ (findVmaPrev mm addr).2 = A.getLast? := by
  obtain ⟨hfind, -⟩ := findVma_spec addr h hcache
  rw [hfind]
  obtain ⟨hall, hnone⟩ | ⟨A, i, B, hf, hprev⟩ := findVmaPrev_spec addr h
  · have hno : mm.mmap.find? (fun i => addr < (mm.vma i).vmEnd) = none :=
      List.find?_eq_none.mpr fun i hi => by simpa using hall i hi
    rw [hnone, hno]
    exact ⟨rfl, rfl, fun i hi => by cases hi⟩
  · rw [hf.find?, hprev]
    refine ⟨rfl, rfl, fun j hj => ?_⟩
    cases hj
    exact ⟨A, B, hf.list, rfl⟩

theorem lookups_agree_two : (findVma ⟨fun i => ⟨i * 0x2000, i * 0x2000 + 0x1000, 0, 0, none, 0, none, 0⟩, [1, 2],
    .node .nil 1 2 (.node .nil 2 1 .nil), some 2, 2, 2, 0, 0, 0, 0⟩ 0x2800).1 = some 1 :=
  (lookups_agree 0x2800 (by decide) (by simp)).1

end Lookup

/-! ### Linking areas in and out -/

section Linking

variable {mm : Mm} {A B : List ℕ} {i : ℕ}

theorem buildMmapAvl_treeOk (h : Ordered mm.vma mm.mmap) : TreeOk (buildMmapAvl mm) mm.mmap := by
  -- along the list every new key is the largest so far
  have key : ∀ (B A : List ℕ) (t : AvlTree ℕ), Ordered mm.vma (A ++ B) → t.inorder = A → t.Balanced →
      (B.foldl (fun t i => avlInsert mm.key i t) t).inorder = A ++ B ∧
        (B.foldl (fun t i => avlInsert mm.key i t) t).Balanced := by
    intro B
    induction B with
    | nil => exact fun A t _ ht hb => ⟨by simpa using ht, hb⟩
    | cons i B ih =>
      intro A t ho ht hb
      have hk := ho.keys
      rw [List.pairwise_append] at hk
      have hin : (avlInsert mm.key i t).inorder = A ++ [i] := by
        refine avlInsert_inorder mm.key (B := []) (by simpa using ht) (fun a ha => ?_) (by simp)
        exact (hk.2.2 a ha i (mem_cons_self ..)).le
      have := ih (A ++ [i]) (avlInsert mm.key i t) (by simpa using ho) hin (avlInsert_balanced mm.key i hb)
      simpa using this
  obtain ⟨hin, hb⟩ := key mm.mmap [] .nil (by simpa using h) rfl trivial
  exact ⟨.inr hin, hb⟩

theorem linkedIn_spec (h : mm.WellFormed) (hl : mm.mmap = A ++ B) (hi : Ordered mm.vma (A ++ i :: B)) :
    ∃ t, (if mm.mmapAvl = .nil then
      let below := fun j => decide ((mm.vma j).vmStart ≤ (mm.vma i).vmStart)
      { mm with mmap := mm.mmap.takeWhile below ++ i :: mm.mmap.dropWhile below }
    else
      let (t, prev, _) := avlInsertNeighbours mm.key i mm.mmapAvl
      { mm with mmapAvl := t, mmap := linkAfter i prev mm.mmap }) =
    { mm with mmap := A ++ i :: B, mmapAvl := t } ∧ TreeOk t (A ++ i :: B) := by
  obtain ⟨ho, hlt, hA, hB⟩ := ordered_insert.mp hi
  split
  · next hnil =>
    refine ⟨.nil, ?_, TreeOk.nil _⟩
    have hA' : ∀ a ∈ A, decide ((mm.vma a).vmStart ≤ (mm.vma i).vmStart) = true := fun a ha =>
      decide_eq_true (le_trans (ho.1 a (List.mem_append_left _ ha)).le (hA a ha))
    have hB' : ∀ b ∈ B, decide ((mm.vma b).vmStart ≤ (mm.vma i).vmStart) = false := fun b hb =>
      decide_eq_false (by have := hB b hb; omega)
    have htake : (A ++ B).takeWhile (fun j => decide ((mm.vma j).vmStart ≤ (mm.vma i).vmStart)) = A := by
      rw [List.takeWhile_append_of_pos hA']
      cases B with
      | nil => simp
      | cons b B => rw [List.takeWhile_cons_of_neg (by simp [hB' b]), List.append_nil]
    have hdrop : (A ++ B).dropWhile (fun j => decide ((mm.vma j).vmStart ≤ (mm.vma i).vmStart)) = B := by
      rw [List.dropWhile_append_of_pos hA']
      cases B with
      | nil => simp
      | cons b B => rw [List.dropWhile_cons_of_neg (by simp [hB' b])]
    simp only [hl, htake, hdrop, hnil]
  · next hnil =>
    have hin : mm.mmapAvl.inorder = A ++ B := hl ▸ h.tree.inorder_eq hnil
    have hA' : ∀ a ∈ A, mm.key a ≤ mm.key i := fun a ha => le_trans (hA a ha) hlt.le
    have hB' : ∀ b ∈ B, mm.key i < mm.key b := fun b hb =>
      lt_of_le_of_lt (hB b hb) (ho.1 b (List.mem_append_right _ hb))
    refine ⟨avlInsert mm.key i mm.mmapAvl, ?_, .inr (avlInsert_inorder mm.key hin hA' hB'),
      avlInsert_balanced mm.key i h.tree.2⟩
    rw [avlInsertNeighbours_eq mm.key hin hA' hB', hl]
    simp only [linkAfter_getLast? ho.nodup]

theorem insertVmStruct_spec (h : mm.WellFormed) (hl : mm.mmap = A ++ B) (hi : Ordered mm.vma (A ++ i :: B)) :
    ∃ t, insertVmStruct mm i =
        { mm with mmap := A ++ i :: B, mmapAvl := t, mapCount := mm.mapCount + 1 } ∧
      TreeOk t (A ++ i :: B) := by
  obtain ⟨t, hmm, ht⟩ := linkedIn_spec h hl hi
  simp only [insertVmStruct, hmm]
  split
  · exact ⟨_, rfl, @buildMmapAvl_treeOk { mm with
      mmap := A ++ i :: B, mmapAvl := t, mapCount := mm.mapCount + 1 } hi⟩
  · exact ⟨t, rfl, ht⟩

theorem unlink_spec (h : mm.WellFormed) (hl : mm.mmap = A ++ i :: B) :
    ∃ t, unlink mm i = { mm with mmap := A ++ B, mmapAvl := t } ∧ TreeOk t (A ++ B) := by
  have ho := hl ▸ h.ordered
  have hk := ho.keys
  rw [List.pairwise_append, List.pairwise_cons] at hk
  have herase : mm.mmap.erase i = A ++ B := by
    rw [hl, List.erase_append_right _ ho.notMem.1, List.erase_cons_head]
  refine ⟨_, by rw [unlink, herase], ?_⟩
  split
  · exact TreeOk.nil _
  · next hnil =>
    refine ⟨.inr (avlRemove_inorder mm.key (hl ▸ h.tree.inorder_eq hnil) ?_ hk.2.1.1),
      avlRemove_balanced mm.key i h.tree.2⟩
    exact fun a ha => hk.2.2 a ha i (mem_cons_self ..)

end Linking

end I370Linux.Vma
