import I370Linux.SlabCache

/-! # The sections of the slab allocator keep a cache sane

Every locked section of the allocator keeps `Sane` (`Sane.step_iff`), but for one: a turn of
`kmem_cache_shrink` takes the last slab out without moving `c_freep` off it, as `kmem_cache_reap`
does.  A cache whose only slab with free objects is taken back so is left with `c_freep` on a destroyed
slab, and every later allocation reports a corrupt slab. -/

namespace I370Linux.Slab

open Runs Links Function List

variable {c c' : KmemCache} {s t k : ℕ} {o : Obj} {f : List Obj} {l l' l₁ l₂ full rest : List ℕ}
  {free : ℕ → List Obj}

/-! ### Allocation keeps the arrangement -/

theorem Arranged.ringAt (h : Arranged c full (l₁ ++ s :: l₂) free) : Ring c.links (full ++ l₁ ++ s :: l₂) := by
  rw [append_assoc]
  exact h.ring

theorem Arranged.inuse_zero_mem (h : Arranged c full rest free) (hs : s ∈ full ++ rest)
    (hin : (c.slab s).sInuse = 0) : s ∈ rest := by
  obtain hmem | hmem := mem_append.mp hs
  · exact absurd (h.isFull s hmem) ((h.stocked.slabs s hs).of_not_inuse h.stocked.num hin).1
  · exact hmem

/-- An object of the slab `c_freep` points at: `c_freep` moves on when it was the last. -/
theorem Arranged.takeObj (h : Arranged c full (s :: rest) free) :
    ∃ c' o, c.takeObj s = some (c', o) ∧ Sane c' := by
  obtain ⟨o, f, hfree⟩ := exists_cons_of_ne_nil (h.hasFree s mem_cons_self)
  obtain ⟨c', htake, hlinks, hfreep, hst⟩ := h.stocked.takeObj (by simp) hfree
  have hnd := h.ring.notMem
  rw [mem_append, not_or] at hnd
  have hne : ∀ t, t ∈ full ∨ t ∈ rest → t ≠ s := by
    rintro t ht rfl
    exact ht.elim hnd.1 hnd.2
  refine ⟨c', o, htake, ?_⟩
  obtain rfl | hf := eq_or_ne f []
  · refine ⟨full ++ [s], rest, update free s [], ?_, ?_, fun t ht => ?_, fun t ht => ?_, ?_⟩
    · rw [hlinks, ← append_cons]
      exact h.ring
    · rw [← append_cons]
      exact hst
    · obtain ht | ht := mem_append.mp ht
      · rw [update_of_ne (hne t (.inl ht))]
        exact h.isFull t ht
      · obtain rfl := mem_singleton.mp ht
        exact update_self _ _ _
    · rw [update_of_ne (hne t (.inr ht))]
      exact h.hasFree t (mem_cons_of_mem s ht)
    · rw [hfreep, if_pos rfl, h.ring.next_some]
  · refine ⟨full, s :: rest, _, ?_, hst, fun t ht => ?_, fun t ht => ?_, ?_⟩
    · rw [hlinks]
      exact h.ring
    · rw [update_of_ne (hne t (.inl ht))]
      exact h.isFull t ht
    · obtain rfl | ht := mem_cons.mp ht
      · rwa [update_self]
      · rw [update_of_ne (hne t (.inr ht))]
        exact h.hasFree t (mem_cons_of_mem s ht)
    · rw [hfreep, if_neg hf, h.freep]

/-- A slab behind the first one with free objects is moved before it. -/
theorem Arranged.moveFirst (h : Arranged c full (t :: l₁ ++ s :: l₂) free) :
    Arranged { (c.kmemSlabUnlink s).kmemSlabLinkFree s with cFreep := some s } full
      (s :: (t :: l₁ ++ l₂)) free := by
  have hring := h.ringAt
  have hout : s ∉ full ++ (t :: l₁ ++ l₂) := by
    rw [← append_assoc]
    exact hring.notMem
  have hperm : (t :: l₁ ++ s :: l₂).Perm (s :: (t :: l₁ ++ l₂)) := perm_middle
  refine ⟨?_, ?_, h.isFull, fun t ht => h.hasFree t (hperm.mem_iff.mpr ht), rfl⟩
  · have hun := hring.unlink
    rw [append_assoc] at hun
    exact hun.insertBefore hout h.freep
  · exact (h.stocked.reset _ _ _).perm (hperm.append_left full)

variable {fuel : ℕ} {dma : Bool} {freep : Option ℕ}

theorem Arranged.searchDma {found : Option ℕ} (h : Arranged c full (s :: rest) free)
    (hs : c.kmemCacheSearchDma fuel = some (c', found)) :
    (found = none ∧ c' = c) ∨ ∃ d rest', found = some d ∧ Arranged c' full (d :: rest') free := by
  unfold KmemCache.kmemCacheSearchDma at hs
  split at hs
  case h_1 => cases hs
  case h_2 =>
    simp only [Option.some.injEq, Prod.mk.injEq] at hs
    exact .inl ⟨hs.2.symm, hs.1.symm⟩
  case h_3 d hseek =>
    simp only [Option.some.injEq, Prod.mk.injEq] at hs
    -- the search stays behind the slab `c_freep` points at
    have hnext : c.links.next c.cFreep = rest.head? := by
      rw [h.freep]
      exact h.ring.next_some
    have hmem : d ∈ rest := by
      refine (@seek_found ℕ d _ _ _ (· ∈ rest) (fun a b ha hab => ?_) fuel _ (fun b hb => ?_) hseek).1
      · obtain ⟨m₁, m₂, rfl⟩ := append_of_mem ha
        have hring : Ring c.links ((full ++ s :: m₁) ++ a :: m₂) := by
          have := h.ring
          rwa [append_cons, ← append_assoc, ← append_cons] at this
        rw [hring.next_some] at hab
        exact mem_append_right _ (mem_cons_of_mem a (mem_of_head? hab))
      · rw [hnext] at hb
        exact mem_of_head? hb
    obtain ⟨m₁, m₂, rfl⟩ := append_of_mem hmem
    refine .inr ⟨d, s :: m₁ ++ m₂, hs.2.symm, ?_⟩
    rw [← hs.1]
    exact Arranged.moveFirst h

theorem Sane.alloc {r : KmemCache.AllocResult} (h : Sane c)
    (hs : c.kmemCacheAlloc dma fuel = some (c', r)) : Sane c' := by
  obtain ⟨full, rest, free, h⟩ := h
  unfold KmemCache.kmemCacheAlloc at hs
  cases rest with
  | nil =>
    rw [h.freep] at hs
    simp only [List.head?_nil, Option.some.injEq, Prod.mk.injEq] at hs
    rw [← hs.1]
    exact ⟨full, [], free, h⟩
  | cons s rest =>
    rw [h.freep, List.head?_cons] at hs
    dsimp only at hs
    rw [if_neg (not_not.mpr (h.stocked.slabs s (by simp)).magic)] at hs
    split_ifs at hs with hdma
    · split at hs
      case h_1 => cases hs
      case h_2 c₁ hsearch =>
        obtain ⟨-, rfl⟩ | ⟨d, rest', hd, -⟩ := h.searchDma hsearch
        · simp only [Option.some.injEq, Prod.mk.injEq] at hs
          rw [← hs.1]
          exact ⟨full, s :: rest, free, h⟩
        · cases hd
      case h_3 c₁ d hsearch =>
        obtain ⟨hd, -⟩ | ⟨d', rest', hd, hc₁⟩ := h.searchDma hsearch
        · cases hd
        cases hd
        obtain ⟨c₂, o, htake, hsane⟩ := hc₁.takeObj
        rw [htake] at hs
        simp only [Option.map_some, Option.some.injEq, Prod.mk.injEq] at hs
        rwa [← hs.1]
    · obtain ⟨c₂, o, htake, hsane⟩ := h.takeObj
      rw [htake] at hs
      simp only [Option.map_some, Option.some.injEq, Prod.mk.injEq] at hs
      rwa [← hs.1]

theorem Arranged.alloc_isSome (h : Arranged c full rest free) (hfuel : rest.length < fuel)
    (dma : Bool) : (c.kmemCacheAlloc dma fuel).isSome = true := by
  unfold KmemCache.kmemCacheAlloc
  rw [h.freep]
  cases rest with
  | nil => rfl
  | cons s rest =>
    rw [List.head?_cons]
    dsimp only
    rw [if_neg (not_not.mpr (h.stocked.slabs s (by simp)).magic)]
    obtain ⟨c₂, o, htake, -⟩ := h.takeObj
    rw [htake]
    have hlinked := h.ring.chain.linked_of_cut (full ++ [s]) rest (append_cons full s rest)
    rw [List.getLast?_concat] at hlinked
    split_ifs
    · rw [length_cons] at hfuel
      have hsearch : (c.kmemCacheSearchDma fuel).isSome = true := by
        have hseek := @seek_isSome ℕ _ (fun s => (c.slab s).sDma) (fun _ => false) fuel _ _ hlinked
          (Nat.lt_of_succ_lt hfuel)
        unfold KmemCache.kmemCacheSearchDma
        rw [h.freep, List.head?_cons]
        obtain ⟨r, hr⟩ := Option.isSome_iff_exists.mp hseek
        rw [hr]
        cases r <;> rfl
      obtain ⟨⟨c₁, found⟩, hfound⟩ := Option.isSome_iff_exists.mp hsearch
      rw [hfound]
      obtain ⟨rfl, -⟩ | ⟨d, rest', rfl, hc₁⟩ := h.searchDma hfound
      · rfl
      · obtain ⟨c₃, p, htake', -⟩ := hc₁.takeObj
        dsimp only
        rw [htake']
        rfl
    · rfl

/-! ### Release keeps the arrangement -/

section

variable (h : Arranged c full (l₁ ++ s :: l₂) free)
include h

theorem Arranged.freep_off : (c.cFreep = some s → c.links.next (some s) = (l₁ ++ l₂).head?) ∧
    (c.cFreep ≠ some s → c.cFreep = (l₁ ++ l₂).head?) := by
  have hring := h.ringAt
  rw [hring.next_some, h.freep]
  cases l₁ with
  | nil => exact ⟨fun _ => rfl, fun hne => absurd rfl hne⟩
  | cons t l₁ =>
    refine ⟨fun heq => ?_, fun _ => rfl⟩
    obtain rfl : t = s := Option.some.inj heq
    exact absurd (by simp) hring.notMem

theorem Arranged.moveLast (hl₂ : l₂ ≠ []) (hfreep : freep = (l₁ ++ l₂).head?) :
    Arranged (({ c with cFreep := freep }.kmemSlabUnlink s).kmemSlabLinkEnd s) full
      (l₁ ++ l₂ ++ [s]) free := by
  have hring := h.ringAt
  have hout : s ∉ full ++ l₁ ++ l₂ := hring.notMem
  have hperm : (l₁ ++ s :: l₂).Perm (l₁ ++ l₂ ++ [s]) := perm_middle.trans (perm_append_singleton s _).symm
  refine ⟨?_, ?_, h.isFull, fun t ht => h.hasFree t (hperm.mem_iff.mpr ht), ?_⟩
  · have hun : Ring (c.links.unlink s) ((full ++ l₁ ++ l₂) ++ []) := by
      rw [append_nil]
      exact hring.unlink
    have hin := hun.insertBefore (a := s) (q := none) (by rwa [append_nil]) rfl
    rwa [append_assoc, append_assoc, ← append_assoc l₁] at hin
  · exact (h.stocked.reset _ _ _).perm (hperm.append_left full)
  · have hne : l₁ ++ l₂ ≠ [] := by simp [hl₂]
    rw [hfreep]
    exact (List.head?_append_of_ne_nil (l₁ ++ l₂) hne).symm

theorem Arranged.fullFree : Sane (c.kmemCacheFullFree s) := by
  have hring := h.ringAt
  -- a slab in use follows, so the slab is not the last
  have hl₂ : c.inuse (c.links.next (some s)) ≠ 0 → l₂ ≠ [] := by
    rintro hin rfl
    rw [hring.next_some] at hin
    exact hin rfl
  unfold KmemCache.kmemCacheFullFree
  dsimp only
  split_ifs with hin hfreep
  · exact ⟨full, _, free, h.moveLast (hl₂ hin) (h.freep_off.1 hfreep)⟩
  · exact ⟨full, _, free, h.moveLast (hl₂ hin) (h.freep_off.2 hfreep)⟩
  · exact ⟨full, _, free, h⟩

end

theorem Sane.oneFree (hring : Ring c.links (l₁ ++ s :: l₂ ++ rest))
    (hst : Stocked c (l₁ ++ s :: l₂ ++ rest) free) (hfull : ∀ t ∈ l₁ ++ l₂, free t = [])
    (hs : free s ≠ []) (hrest : ∀ t ∈ rest, free t ≠ []) (hfreep : c.cFreep = rest.head?) :
    Sane (c.kmemCacheOneFree s) := by
  have hnext : c.links.next (some s) = (l₂ ++ rest).head? := by
    rw [append_assoc, cons_append] at hring
    exact hring.next_some
  have hperm : (l₁ ++ s :: l₂ ++ rest).Perm (l₁ ++ l₂ ++ s :: rest) := by
    rw [append_assoc, append_assoc]
    exact List.Perm.append_left l₁ perm_middle.symm
  have hfree : ∀ t ∈ s :: rest, free t ≠ [] := by
    intro t ht
    obtain rfl | ht := mem_cons.mp ht
    · exact hs
    · exact hrest t ht
  unfold KmemCache.kmemCacheOneFree
  split_ifs with hin
  · refine ⟨l₁ ++ l₂, s :: rest, free, ?_, ?_, hfull, hfree, rfl⟩
    · rw [append_assoc, cons_append] at hring
      have hun := hring.unlink
      rw [← append_assoc] at hun
      refine hun.insertBefore ?_ hfreep
      rw [append_assoc]
      exact hring.notMem
    · exact (hst.reset _ _ _).perm hperm
  · -- the slab was the last of the full ones
    obtain rfl : l₂ = [] := by
      cases l₂ with
      | nil => rfl
      | cons t l₂ =>
        refine absurd ?_ hin
        rw [hnext]
        have hcount := (hst.slabs t (by simp)).count
        rwa [hfull t (by simp)] at hcount
    refine ⟨l₁, s :: rest, free, ?_, ?_, fun t ht => hfull t (by simpa using ht), hfree, rfl⟩
    · rwa [append_assoc] at hring
    · rw [append_assoc] at hst
      exact hst.reset _ _ _

theorem Stocked.kmemCacheFree (h : Stocked c l free) (hlive : c.live (s, k) = true) :
    s ∈ l ∧ c.kmemCacheFree (s, k) = c.freeChecked s (s, k) := by
  have hs : s ∈ l := by
    by_contra hs
    rw [h.dead s hs k] at hlive
    exact Bool.false_ne_true hlive
  have hheld := (h.slabs s hs).held k hlive
  refine ⟨hs, ?_⟩
  unfold KmemCache.kmemCacheFree
  by_cases hb : c.cBufctl = true
  · rw [if_pos hb] at hheld ⊢
    rw [if_pos hheld]
  · rw [if_neg hb] at hheld ⊢
    rw [hheld]

theorem Sane.kmemCacheFree (h : Sane c) (hlive : c.live o = true) : Sane (c.kmemCacheFree o).1 := by
  obtain ⟨full, rest, free, h⟩ := h
  obtain ⟨s, k⟩ := o
  obtain ⟨hs, heq⟩ := h.stocked.kmemCacheFree hlive
  have hput := h.stocked.putObj hs hlive
  have hok := h.stocked.slabs s hs
  have hself : update free s ((s, k) :: free s) s ≠ [] := by
    rw [update_self]
    exact cons_ne_nil _ _
  have hother : ∀ t ≠ s, update free s ((s, k) :: free s) t = free t := fun t ht => update_of_ne ht _ _
  rw [heq]
  unfold KmemCache.freeChecked
  rw [if_neg (not_not.mpr hok.magic), if_neg (hok.inuse_pos hlive).ne', hok.linked.head?]
  dsimp only
  obtain hmem | hmem := mem_append.mp hs
  · -- the slab was full
    rw [if_neg (by simp [h.isFull s hmem])]
    obtain ⟨l₁, l₂, rfl⟩ := append_of_mem hmem
    have hout : s ∉ l₁ ++ l₂ ++ rest := by
      have hnd := h.ring.nodup
      rw [append_assoc, cons_append, nodup_middle, nodup_cons] at hnd
      rw [append_assoc]
      exact hnd.1
    have hne : ∀ t, t ∈ l₁ ++ l₂ ∨ t ∈ rest → t ≠ s := by
      rintro t ht rfl
      exact hout (mem_append.mpr ht)
    refine Sane.oneFree h.ring hput (fun t ht => ?_) hself (fun t ht => ?_) h.freep
    · rw [hother t (hne t (.inl ht))]
      refine h.isFull t ?_
      exact (perm_middle.mem_iff).mpr (mem_cons_of_mem s ht)
    · rw [hother t (hne t (.inr ht))]
      exact h.hasFree t ht
  · have hsome : (free s).head?.isSome = true := by
      rw [isSome_head?]
      exact h.hasFree s hmem
    rw [if_pos hsome]
    have hnd := h.ring.nodup
    rw [nodup_append] at hnd
    have harr : Arranged (c.putObj s (s, k)) full rest (update free s ((s, k) :: free s)) := by
      refine ⟨h.ring, hput, fun t ht => ?_, fun t ht => ?_, h.freep⟩
      · rw [hother t (hnd.2.2 t ht s hmem)]
        exact h.isFull t ht
      · by_cases hts : t = s
        · rw [hts]
          exact hself
        · rw [hother t hts]
          exact h.hasFree t ht
    split_ifs
    · exact ⟨full, rest, _, harr⟩
    · obtain ⟨l₁, l₂, rfl⟩ := append_of_mem hmem
      exact harr.fullFree

/-! ### Growing, reaping and shrinking -/

theorem Sane.growEnd (h : Sane c) (hs : c.owned s = false) (dma : Bool) : Sane (c.growEnd s dma) := by
  obtain ⟨full, rest, free, h⟩ := h
  have hst := h.stocked.growEnd hs dma
  have hout : s ∉ full ++ rest := by
    intro hmem
    rw [h.stocked.owned s hmem] at hs
    cases hs
  have hother : ∀ t ∈ full ++ rest, update free s (c.objOrder s) t = free t := by
    intro t ht
    refine update_of_ne ?_ _ _
    rintro rfl
    exact hout ht
  refine ⟨full, rest ++ [s], update free s (c.objOrder s), ?_, ?_, fun t ht => ?_, fun t ht => ?_, ?_⟩
  · have hring : Ring c.links ((full ++ rest) ++ []) := by
      rw [append_nil]
      exact h.ring
    have hin := hring.insertBefore (a := s) (q := none) (by rwa [append_nil]) rfl
    rwa [append_assoc] at hin
  · rw [← append_assoc]
    exact hst
  · rw [hother t (mem_append_left rest ht)]
    exact h.isFull t ht
  · obtain ht | ht := mem_append.mp ht
    · rw [hother t (mem_append_right full ht)]
      exact h.hasFree t ht
    obtain rfl := mem_singleton.mp ht
    rw [update_self]
    apply ne_nil_of_length_pos
    rw [length_objOrder]
    exact h.stocked.num
  · change (if c.cFreep.isNone = true then some s else c.cFreep) = _
    rw [h.freep]
    cases rest <;> rfl

theorem Arranged.takeOut (h : Arranged c full (l₁ ++ s :: l₂) free) (hin : (c.slab s).sInuse = 0)
    (hfreep : freep = (l₁ ++ l₂).head?) : Sane ({ c with cFreep := freep }.takeOut s) := by
  have hring := h.ringAt
  have hst : Stocked c ((full ++ l₁) ++ s :: l₂) free := by
    rw [append_assoc]
    exact h.stocked
  refine ⟨full, l₁ ++ l₂, free, ?_, ?_, h.isFull, fun t ht => h.hasFree t ?_, hfreep⟩
  · rw [← append_assoc]
    exact hring.unlink
  · rw [← append_assoc]
    exact (hst.takeOut hring.nodup hin).reset _ _ _
  · exact (perm_middle.mem_iff).mpr (mem_cons_of_mem s ht)

theorem Arranged.reap_found (h : Arranged c full rest free) (hlast : c.inuse (c.links.prev none) = 0)
    (hs : (if dma then
      seek (fun s => c.links.prev (some s)) (fun s => (c.slab s).sDma)
        (fun s => (c.slab s).sInuse ≠ 0) fuel (c.links.prev none)
      else some (c.links.prev none)) = some (some s)) : s ∈ full ++ rest ∧ (c.slab s).sInuse = 0 := by
  have hmem : ∀ b, c.links.prev none = some b → b ∈ full ++ rest := by
    intro b hb
    rw [h.ring.prev_none] at hb
    exact mem_of_getLast? hb
  split_ifs at hs with hdma
  · have hfound := @seek_found ℕ s _ _ _ (· ∈ full ++ rest) (fun a b ha hab => ?_) fuel _ hmem hs
    · exact ⟨hfound.1, by simpa using hfound.2.2⟩
    · obtain ⟨m₁, m₂, hm⟩ := append_of_mem ha
      have hring := h.ring
      rw [hm] at hring ⊢
      rw [hring.prev_some] at hab
      exact mem_append_left _ (mem_of_getLast? hab)
  · have hs := Option.some.inj hs
    rw [hs] at hlast
    exact ⟨hmem s hs, hlast⟩

theorem Sane.reap {r : Option ℕ} (h : Sane c) (hs : c.kmemCacheReap dma fuel = some (c', r)) : Sane c' := by
  obtain ⟨full, rest, free, h⟩ := h
  unfold KmemCache.kmemCacheReap at hs
  dsimp only at hs
  split at hs
  case isTrue =>
    simp only [Option.some.injEq, Prod.mk.injEq] at hs
    rw [← hs.1]
    exact ⟨full, rest, free, h⟩
  case isFalse hstop =>
    simp only [not_or, not_not] at hstop
    rw [Option.map_eq_some_iff] at hs
    obtain ⟨slabp, hfound, hs⟩ := hs
    cases slabp with
    | none =>
      simp only [Prod.mk.injEq] at hs
      rw [← hs.1]
      exact ⟨full, rest, free, h⟩
    | some s =>
      obtain ⟨hmem, hin⟩ := h.reap_found hstop.2.1 hfound
      obtain ⟨l₁, l₂, rfl⟩ := append_of_mem (h.inuse_zero_mem hmem hin)
      simp only [Prod.mk.injEq] at hs
      rw [← hs.1]
      split_ifs with hfreep
      · exact h.takeOut hin (h.freep_off.1 hfreep.symm)
      · exact h.takeOut hin (h.freep_off.2 fun heq => hfreep heq.symm)

theorem Arranged.reap_isSome (h : Arranged c full rest free)
    (hfuel : (full ++ rest).length < fuel) (dma : Bool) : (c.kmemCacheReap dma fuel).isSome = true := by
  have hlinked := h.ring.chain_reverse.linked_of_cut [] (full ++ rest).reverse rfl
  have hseek := @seek_isSome ℕ _ (fun s => (c.slab s).sDma) (fun s => (c.slab s).sInuse ≠ 0) fuel _ _
    hlinked (by rwa [length_reverse])
  unfold KmemCache.kmemCacheReap
  dsimp only
  split_ifs
  · rfl
  · rw [Option.isSome_map]
    exact hseek
  · rfl

/-- Taking a slab out without moving `c_freep` is right just when `c_freep` is not on it. -/
theorem Arranged.takeOut_iff (h : Arranged c full (l₁ ++ s :: l₂) free)
    (hin : (c.slab s).sInuse = 0) : Sane (c.takeOut s) ↔ c.cFreep ≠ some s := by
  constructor
  · rintro ⟨full', rest', free', h'⟩ hfreep
    have hring := h.ringAt
    have hmem : s ∈ full' ++ rest' := by
      refine mem_append_right full' (mem_of_head? ?_)
      rw [← h'.freep]
      exact hfreep
    rw [h'.ring.unique hring.unlink] at hmem
    exact hring.notMem hmem
  · intro hfreep
    exact h.takeOut hin (h.freep_off.2 hfreep)

/-- The condition on a section: for a turn of shrinking, the cache is growing, or its last slab is in use or is not the one
`c_freep` points at. -/
def keepsFreep (c : KmemCache) : Section → Bool
  | .shrink => c.cGrowing ≠ 0 || (c.links.prev none).all fun s => (c.slab s).sInuse ≠ 0 || c.cFreep ≠ some s
  | _ => true

theorem Sane.shrink_iff (h : Sane c) : Sane c.kmemCacheShrink.1 ↔ keepsFreep c .shrink = true := by
  obtain ⟨full, rest, free, h⟩ := h
  have hsane : Sane c := ⟨full, rest, free, h⟩
  unfold keepsFreep KmemCache.kmemCacheShrink
  split
  case isTrue hgrow => exact iff_of_true hsane (by simp [hgrow])
  case isFalse hgrow =>
    rw [decide_eq_false hgrow, Bool.false_or]
    split
    case h_1 hlast => exact iff_of_true hsane (by rw [hlast]; rfl)
    case h_2 s hlast =>
      rw [hlast, Option.all_some]
      split
      case isTrue hin => exact iff_of_true hsane (by simp [hin])
      case isFalse hin =>
        rw [decide_eq_false hin, Bool.false_or, decide_eq_true_eq]
        have hmem : s ∈ full ++ rest := by
          rw [h.ring.prev_none] at hlast
          exact mem_of_getLast? hlast
        rw [not_not] at hin
        obtain ⟨l₁, l₂, rfl⟩ := append_of_mem (h.inuse_zero_mem hmem hin)
        exact h.takeOut_iff hin

theorem Sane.destroy (h : Sane c) (hs : c.dying s = true) : Sane (c.kmemSlabDestroy s) := by
  obtain ⟨full, rest, free, h⟩ := h
  exact ⟨full, rest, free, { h with stocked := h.stocked.destroy hs }⟩

theorem Sane.reset (h : Sane c) (growing : ℕ) : Sane { c with cGrowing := growing } := by
  obtain ⟨full, rest, free, h⟩ := h
  exact ⟨full, rest, free, { h with stocked := h.stocked.reset _ _ _ }⟩

/-! ### Runs of sections -/

/-- **One section.**  Every section keeps the cache sane, but for a turn of shrinking that leaves
`c_freep` on the slab it takes out. -/
theorem Sane.step_iff {a : Section} (h : Sane c) (hs : step c a = some c') :
    Sane c' ↔ keepsFreep c a = true := by
  cases a with
  | shrink =>
    rw [← Option.some.inj hs]
    exact h.shrink_iff
  | alloc dma fuel =>
    obtain ⟨⟨c₁, r⟩, halloc, rfl⟩ := Option.map_eq_some_iff.mp hs
    exact iff_of_true (h.alloc halloc) rfl
  | reap dma fuel =>
    obtain ⟨⟨c₁, r⟩, hreap, rfl⟩ := Option.map_eq_some_iff.mp hs
    exact iff_of_true (h.reap hreap) rfl
  | growBegin =>
    rw [← Option.some.inj hs]
    exact iff_of_true (h.reset _) rfl
  | growFail =>
    dsimp only [step] at hs
    split_ifs at hs
    rw [← Option.some.inj hs]
    exact iff_of_true (h.reset _) rfl
  | growEnd s dma =>
    dsimp only [step] at hs
    split_ifs at hs with hg
    rw [not_or, Bool.not_eq_true] at hg
    rw [← Option.some.inj hs]
    exact iff_of_true (h.growEnd hg.2 dma) rfl
  | free objp =>
    dsimp only [step] at hs
    split_ifs at hs with hlive
    rw [← Option.some.inj hs]
    exact iff_of_true (h.kmemCacheFree hlive) rfl
  | destroy s =>
    dsimp only [step] at hs
    split_ifs at hs with hdying
    rw [← Option.some.inj hs]
    exact iff_of_true (h.destroy hdying) rfl

theorem Created.sane (h : Created c) : Sane c := by
  refine ⟨[], [], fun _ => [], Ring.of_empty h.firstp h.lastp, ?_, by simp, by simp, h.freep⟩
  refine ⟨h.num, by simp, by simp, fun s hs => ?_, fun s _ k => h.live (s, k)⟩
  rw [h.dying s] at hs
  cases hs

/-- In every state reached by sections that keep `c_freep` linked the cache is sane; a section that
does not ends this. -/
theorem sane_iff_keepsFreep {c₀ c c' : KmemCache} {a : Section} (h₀ : Created c₀)
    (hr : ReachesBy step (fun c a => keepsFreep c a = true) c₀ c) (hs : step c a = some c') :
    Sane c ∧ (Sane c' ↔ keepsFreep c a = true) := by
  have hsane : Sane c := by
    refine hr.invariant h₀.sane fun c a c' h hc hs => ?_
    exact (h.step_iff hs).mpr hc
  exact ⟨hsane, hsane.step_iff hs⟩

/-- A cache as `kmem_cache_create` leaves it, with no memory. -/
def kmemCacheCreate (num : ℕ) (bufctl : Bool) : KmemCache where
  cFreep := none
  cNum := num
  cBufctl := bufctl
  cGrowing := 0
  links := ⟨fun _ => none, fun _ => none⟩
  slab _ := ⟨none, false, 0, 0, false⟩
  buf _ := .nextp none
  live _ := false
  owned _ := false
  dying _ := false

theorem created_kmemCacheCreate {num : ℕ} (h : 0 < num) (bufctl : Bool) :
    Created (kmemCacheCreate num bufctl) :=
  ⟨h, rfl, rfl, rfl, fun _ => rfl, fun _ => rfl⟩

/-- Two slabs, one of them for DMA and moved first: when both are free, shrinking takes the other. -/
theorem sane_iff_keepsFreep_two : ∃ c c',
    ReachesBy step (fun c a => keepsFreep c a = true) (kmemCacheCreate 2 true) c ∧
    step c .shrink = some c' ∧ c'.dying 7 = true ∧ Sane c ∧ Sane c' := by
  obtain ⟨c, hr, hkeeps, hdying⟩ : ∃ c, ReachesBy step (fun c a => keepsFreep c a = true) (kmemCacheCreate 2 true) c ∧
      keepsFreep c .shrink = true ∧ c.kmemCacheShrink.1.dying 7 = true := ReachesBy.exists_of_exec
    [.alloc false 1, .growBegin, .growEnd 7 false, .alloc false 1, .alloc true 2, .growBegin, .growEnd 8 true,
      .alloc true 2, .free (7, 1), .free (8, 1)] (by decide +kernel)
  have hs : step c .shrink = some c.kmemCacheShrink.1 := rfl
  have hsane := sane_iff_keepsFreep (created_kmemCacheCreate (by decide) true) hr hs
  exact ⟨c, _, hr, hs, hdying, hsane.1, hsane.2.mpr hkeeps⟩

theorem Sane.magic_of_freep (h : Sane c) (hs : c.cFreep = some s) : (c.slab s).sMagic = slabMagicAlloc := by
  obtain ⟨full, rest, free, h⟩ := h
  refine (h.stocked.slabs s (mem_append_right full (mem_of_head? ?_))).magic
  rw [← h.freep, hs]

/-- **The shrunk cache.**  An object is allocated and freed and the cache shrunk: `c_freep` is left on
the destroyed slab, and no allocation gets past its magic number. -/
theorem shrink_leaves_freep : ∃ c, Reaches step (kmemCacheCreate 2 false) c ∧ ¬ Sane c ∧
    c.cFreep = some 0 ∧ c.links.next none = none ∧
    (c.slab 0).sMagic = slabMagicDestroyed ∧ c.owned 0 = false ∧
    ∀ dma fuel, c.kmemCacheAlloc dma fuel = some (c, .corrupt) := by
  obtain ⟨c, hc, hfreep, hfirst, hmagic, howned⟩ : ∃ c, Reaches step (kmemCacheCreate 2 false) c ∧ c.cFreep = some 0 ∧
      c.links.next none = none ∧ (c.slab 0).sMagic = slabMagicDestroyed ∧ c.owned 0 = false :=
    Reaches.exists_of_exec [.alloc false 1, .growBegin, .growEnd 0 false, .alloc false 1, .free (0, 0), .shrink,
      .destroy 0] (by decide +kernel)
  have hne : (c.slab 0).sMagic ≠ slabMagicAlloc := by
    rw [hmagic]
    decide
  refine ⟨c, hc, fun h => hne (h.magic_of_freep hfreep), hfreep, hfirst, hmagic, howned, fun dma fuel => ?_⟩
  unfold KmemCache.kmemCacheAlloc
  rw [hfreep]
  dsimp only
  rw [if_pos hne]

/-! ### What callers get -/

theorem Arranged.takeObj_fresh (h : Arranged c full (s :: rest) free) (htake : c.takeObj s = some (c', o)) :
    c.live o = false ∧ c'.live = update c.live o true := by
  obtain ⟨p, f, hfree⟩ := exists_cons_of_ne_nil (h.hasFree s mem_cons_self)
  have hok := hfree ▸ h.stocked.slabs s (mem_append_right full mem_cons_self)
  unfold KmemCache.takeObj at htake
  rw [hok.linked.head?] at htake
  cases htake
  obtain ⟨rfl, -⟩ := hok.within o mem_cons_self
  refine ⟨?_, rfl⟩
  rw [← Bool.not_eq_true, hok.live o.2]
  exact fun ho => ho.2 mem_cons_self

theorem Arranged.alloc_fresh {r : KmemCache.AllocResult} (h : Arranged c full rest free)
    (halloc : c.kmemCacheAlloc dma fuel = some (c', r)) :
    r ≠ .corrupt ∧ ∀ o, r = .obj o → c.live o = false ∧ c'.live = update c.live o true := by
  unfold KmemCache.kmemCacheAlloc at halloc
  rw [h.freep] at halloc
  cases rest with
  | nil =>
    cases halloc
    simp
  | cons s rest =>
    dsimp only [List.head?_cons] at halloc
    rw [if_neg (not_not.mpr (h.stocked.slabs s (by simp)).magic)] at halloc
    split_ifs at halloc
    · cases hsearch : c.kmemCacheSearchDma fuel with
      | none => simp [hsearch] at halloc
      | some found =>
        obtain ⟨c₁, d⟩ := found
        obtain ⟨rfl, -⟩ | ⟨d', rest', rfl, hc₁⟩ := h.searchDma hsearch
        · simp only [hsearch, Option.some.injEq, Prod.mk.injEq] at halloc
          simp [← halloc.2]
        · have hlive : c₁.live = c.live := by
            unfold KmemCache.kmemCacheSearchDma at hsearch
            split at hsearch <;> cases hsearch
            rfl
          simp only [hsearch, Option.map_eq_some_iff, Prod.mk.injEq] at halloc
          obtain ⟨⟨c₂, o⟩, htake, rfl, rfl⟩ := halloc
          rw [← hlive]
          exact ⟨by simp, fun _ ho => by cases ho; exact hc₁.takeObj_fresh htake⟩
    · simp only [Option.map_eq_some_iff, Prod.mk.injEq] at halloc
      obtain ⟨⟨c₂, o⟩, htake, rfl, rfl⟩ := halloc
      exact ⟨by simp, fun _ ho => by cases ho; exact h.takeObj_fresh htake⟩

/-- **What callers get.**  In every run of sections that keep `c_freep` linked, the searches end, an attempt to allocate does
not find the cache corrupt and hands out an object that nobody holds, and a held object is taken back. -/
theorem serves_of_keepsFreep {c₀ : KmemCache} (h₀ : Created c₀)
    (hr : ReachesBy step (fun c a => keepsFreep c a = true) c₀ c) :
    (∃ n, ∀ fuel ≥ n, ∀ dma, (c.kmemCacheReap dma fuel).isSome = true ∧
      ∃ c' r, c.kmemCacheAlloc dma fuel = some (c', r) ∧ r ≠ .corrupt ∧
        ∀ o, r = .obj o → c.live o = false ∧ c'.live = update c.live o true) ∧
    ∀ o, c.live o = true → (c.kmemCacheFree o).2 = .freed := by
  obtain ⟨full, rest, free, h⟩ : Sane c := hr.invariant h₀.sane fun c a c' h hc hs => (h.step_iff hs).mpr hc
  refine ⟨⟨(full ++ rest).length + 1, fun fuel hfuel dma => ⟨h.reap_isSome hfuel dma, ?_⟩⟩, fun o hlive => ?_⟩
  · have hlen : rest.length < fuel := by
      rw [length_append] at hfuel
      omega
    obtain ⟨⟨c', r⟩, halloc⟩ := Option.isSome_iff_exists.mp (h.alloc_isSome hlen dma)
    exact ⟨c', r, halloc, h.alloc_fresh halloc⟩
  · obtain ⟨s, k⟩ := o
    obtain ⟨hs, heq⟩ := h.stocked.kmemCacheFree hlive
    have hok := h.stocked.slabs s hs
    rw [heq, KmemCache.freeChecked, if_neg (not_not.mpr hok.magic), if_neg (hok.inuse_pos hlive).ne']

theorem serves_of_keepsFreep_one : ∃ c : KmemCache, c.live (7, 1) = true ∧ (c.kmemCacheFree (7, 1)).2 = .freed := by
  obtain ⟨c, hr, hlive⟩ : ∃ c, ReachesBy step (fun c a => keepsFreep c a = true) (kmemCacheCreate 2 true) c ∧
      c.live (7, 1) = true :=
    ReachesBy.exists_of_exec [.growBegin, .growEnd 7 false, .alloc false 1] (by decide +kernel)
  exact ⟨c, hlive, (serves_of_keepsFreep (created_kmemCacheCreate (by decide) true) hr).2 _ hlive⟩

end I370Linux.Slab
