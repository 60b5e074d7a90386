import I370Linux.Runs
import I370Linux.PageFault

/-! # Isolation of the address spaces of a fork

After `copy_page_range` two address spaces share their frames.  The routines that write to user
memory do not test the write-protect bit, so they store to a shared frame as it is.  `seen` is what
the second address space sees at an address.  A writer leaves it alone if the frames of the pages it
goes to are hidden from the second address space (`Unshared`): the pages it faults in get frames of
their own, and `do_wp_page` touches only frames that are hidden. -/

namespace I370Linux.PageFault

open PagedStore Vma PageTable UserCopy Runs Function

/-- What the second address space sees at an address; `none` if nothing is there yet. -/
def seen (k : Sys) (va : ℕ) : Option Byte :=
  let pte := pteAt k.rest.other va
  if pteNone pte then none
  else if ptePresent pte then some (k.mem (ptePage pte + va % pageSize))
  else
    match k.rest.swapCache pte with
    | some page => some (k.mem (page + va % pageSize))
    | none => some (k.rest.swapFile pte (va % pageSize))

/-- The second address space sees the page `f`, in its tables or through the swap cache. -/
def Shows (k : Sys) (f : ℕ) : Prop :=
  ∃ va, (ptePresent (pteAt k.rest.other va) = true ∧ ptePage (pteAt k.rest.other va) = f) ∨
    k.rest.swapCache (pteAt k.rest.other va) = some f

/-- The frames that the writers take from an entry are hidden from the second address space;
`put_user_data` masks the entry with `PAGE_MASK`. -/
def Hidden (k : Sys) (pte : Pte) : Prop :=
  ¬ Shows k (ptePage pte) ∧ ¬ Shows k (pte &&& PAGE_MASK).toNat

/-- An entry that is not swapped out and whose frame is hidden. -/
def Safe (k : Sys) (pte : Pte) : Prop := pte &&& PAGE_SWAPPED ≠ PAGE_SWAPPED ∧ Hidden k pte

def Held (k : Sys) (f : ℕ) : Prop :=
  0 < k.rest.count f ∨ k.rest.reserved f = true ∨ k.rest.maxMapnr ≤ f / pageSize

variable {k : Sys} {f : ℕ} {pte : Pte}

theorem held_setCount {n g : ℕ} (hn : g = f → 0 < n) (h : g ≠ f → Held k g) : Held (setCount k f n) g := by
  have hcount : (setCount k f n).rest.count = update k.rest.count f n := rfl
  obtain rfl | hne := eq_or_ne g f
  · refine .inl ?_
    rw [hcount, update_self]
    exact hn rfl
  · rw [Held, hcount, update_of_ne hne]
    exact h hne

/-! ### Entries -/

theorem Hidden.congr {pte' : Pte} (h : Hidden k pte)
    (hm : pte' &&& PAGE_MASK = pte &&& PAGE_MASK) : Hidden k pte' := by
  have hp : ptePage pte' = ptePage pte := by
    rw [ptePage, ptePage, show PFRA_MASK = PAGE_MASK &&& PFRA_MASK by decide, ← BitVec.and_assoc, hm,
      BitVec.and_assoc]
  rw [Hidden, hp, hm]
  exact h

theorem Safe.set (h : Safe k pte) (h0 : Hidden k pteCleared) : Safe k (setPteVal pte) := by
  rw [setPteVal]
  split
  · exact h
  · exact ⟨by decide, h0⟩

theorem mkwrite_not_swapped (pte : Pte) : pteMkwrite pte &&& PAGE_SWAPPED ≠ PAGE_SWAPPED := by
  intro h
  have h2 := congrArg (· &&& PAGE_RO) h
  simp only [pteMkwrite, BitVec.and_assoc] at h2
  rw [show ~~~PAGE_RO &&& (PAGE_SWAPPED &&& PAGE_RO) = 0#32 by decide, BitVec.and_zero] at h2
  cases h2

theorem Safe.mkyoung (h : Safe k pte) : Safe k (pteMkyoung pte) := by
  refine ⟨?_, h.2.congr (and_and_mask (by decide))⟩
  rw [pteMkyoung, and_and_mask (by decide)]
  exact h.1

theorem Safe.mkdirty (h : Safe k pte) : Safe k (pteMkdirty pte) := by
  refine ⟨?_, h.2.congr (or_and_mask (by decide))⟩
  rw [pteMkdirty, or_and_mask (by decide)]
  exact h.1

theorem Safe.mkwrite (h : Safe k pte) : Safe k (pteMkwrite pte) :=
  ⟨mkwrite_not_swapped pte, h.2.congr (and_and_mask (by decide))⟩

theorem safe_mkAreaPte (hf : f % pageSize = 0) (hlt : f < taskSize)
    (h : ¬ Shows k f) (vma : VmArea) : Safe k (pteMkwrite (pteMkdirty (mkAreaPte vma f))) := by
  refine ⟨mkwrite_not_swapped _, ?_⟩
  have hmask : mkAreaPte vma f &&& PAGE_MASK = BitVec.ofNat 32 f &&& PFRA_MASK := by
    rw [mkAreaPte, mkPte, or_and_mask (protectionMap_low _), BitVec.and_assoc,
      show PFRA_MASK &&& PAGE_MASK = PFRA_MASK by decide]
  have hh : Hidden k (mkAreaPte vma f) := by
    refine ⟨?_, by rwa [hmask, toNat_frame hf hlt]⟩
    rwa [mkAreaPte, ptePage_mkPte hf hlt (protectionMap_frame _)]
  refine (hh.congr ?_ : Hidden k (pteMkdirty _)).congr (and_and_mask (by decide))
  exact or_and_mask (by decide)

/-! ### What a writer keeps -/

/-- The swap cache as its two sides agree on it. -/
structure CacheOk (k : Sys) : Prop where
  iff : ∀ e f, k.rest.swapCache e = some f ↔ k.rest.pageSwap f = some e
  aligned : ∀ e f, k.rest.swapCache e = some f → f % pageSize = 0

/-- The writer has left alone what the second address space sees, and will go on so on
`[lo, hi)`. -/
structure Apart (k₀ : Sys) (lo hi : ℕ) (k : Sys) : Prop where
  areas : k.areas = k₀.areas
  other : k.rest.other = k₀.rest.other
  seen : ∀ va, seen k va = seen k₀ va
  shows : ∀ f, Shows k f → Shows k₀ f
  held : ∀ f, Shows k f → Held k f
  cache : CacheOk k
  empty : Hidden k pteCleared
  bad : Hidden k (badPte k.rest.emptyBadPage)
  safe : ∀ y, lo ≤ y → y < hi → Safe k (pteAt k.pgd y)
  tables : ∀ z, (findPte k₀.pgd z).isSome = true → (findPte k.pgd z).isSome = true

namespace Apart

variable {k₀ : Sys} {lo hi : ℕ}

theorem self (h : Apart k₀ lo hi k) : Apart k lo hi k :=
  ⟨rfl, rfl, fun _ => rfl, fun _ hs => hs, h.held, h.cache, h.empty, h.bad, h.safe, fun _ hz => hz⟩

variable {k' : Sys} {addr page : ℕ} {vma : VmArea}

section

variable (h : Apart k₀ lo hi k)
include h

theorem trans (h' : Apart k lo hi k') : Apart k₀ lo hi k' :=
  ⟨h'.areas.trans h.areas, h'.other.trans h.other, fun va => (h'.seen va).trans (h.seen va),
    fun f hs => h.shows f (h'.shows f hs), h'.held, h'.cache, h'.empty, h'.bad, h'.safe,
    fun z hz => h'.tables z (h.tables z hz)⟩

theorem safe_mono (hs : Safe k₀ pte) : Safe k pte :=
  ⟨hs.1, fun hp => hs.2.1 (h.shows _ hp), fun hp => hs.2.2 (h.shows _ hp)⟩

theorem not_shows (hf : isFree k f = true) : ¬ Shows k f := by
  intro hs
  simp only [isFree, decide_eq_true_eq, Bool.not_eq_true', Bool.decide_and, Bool.and_eq_true] at hf
  obtain ⟨-, -, -, hmax, hcount, hres⟩ := hf
  obtain hc | hr | hm := h.held f hs
  · omega
  · rw [hres] at hr
    cases hr
  · omega

theorem lockKernel : Apart k₀ lo hi (lockKernel k) :=
  { h with cache := { h.cache with } }

theorem unlockKernel : Apart k₀ lo hi (unlockKernel k) :=
  { h with cache := { h.cache with } }

theorem swapFree (e : Pte) : Apart k₀ lo hi (swapFree k e) :=
  { h with cache := { h.cache with } }

theorem withAnswers (as : List Answer) : Apart k₀ lo hi { k with rest := { k.rest with answers := as } } :=
  { h with cache := { h.cache with } }

theorem withPgd {pgd : Pgd} (hsafe : ∀ y, lo ≤ y → y < hi → Safe k (pteAt pgd y))
    (htables : ∀ z, (findPte k.pgd z).isSome = true → (findPte pgd z).isSome = true) :
    Apart k₀ lo hi { k with pgd := pgd } :=
  { h with cache := { h.cache with }, safe := hsafe, tables := fun z hz => htables z (h.tables z hz) }

theorem setPte (addr : ℕ) (hs : Safe k pte) : Apart k₀ lo hi (setPte k addr pte) := by
  refine h.withPgd (fun y hy1 hy2 => ?_) fun z hz => findPte_putPte_isSome _ _ _ hz
  by_cases hp : segment y = segment addr ∧ pteIndex y = pteIndex addr
  · rw [pteAt_of_place _ hp, pteAt_putPte_self]
    exact hs.set h.empty
  · rw [pteAt_putPte_of_place _ _ hp]
    exact h.safe y hy1 hy2

theorem setCount {n : ℕ} (hn : Shows k f → 0 < n) : Apart k₀ lo hi (setCount k f n) := by
  refine { h with held := fun g hg => ?_, cache := { h.cache with } }
  refine held_setCount ?_ fun _ => h.held g hg
  rintro rfl
  exact hn hg

theorem freePage (hf : ¬ Shows k f) : Apart k₀ lo hi (freePage k f) := by
  rw [PageFault.freePage]
  split
  · exact h
  · exact h.setCount fun hs => absurd hs hf

theorem blit (hf : ¬ Shows k f) (hmod : f % pageSize = 0)
    (src : ℕ → Byte) (frm : ℕ) {o r : ℕ} (hr : o + r ≤ pageSize) :
    Apart k₀ lo hi { k with mem := blit k.mem (f + o) src frm r } := by
  -- the bytes of a page that is shown lie elsewhere
  have hmem : ∀ {g : ℕ} (va : ℕ), Shows k g → g % pageSize = 0 →
      PagedStore.blit k.mem (f + o) src frm r (g + va % pageSize) = k.mem (g + va % pageSize) := by
    intro g va hg hgmod
    refine blit_off_page hmod hr ?_
    rw [base_eq hgmod (mod_lt_pageSize va)]
    rintro rfl
    exact hf hg
  refine { h with seen := fun va => ?_, cache := { h.cache with } }
  refine Eq.trans ?_ (h.seen va)
  rw [PageFault.seen, PageFault.seen]
  dsimp only
  split_ifs with hnone hpres
  · rfl
  · rw [hmem va ⟨va, .inl ⟨hpres, rfl⟩⟩ (ptePage_mod _)]
  · rcases hc : k.rest.swapCache (pteAt k.rest.other va) with _ | page
    · rfl
    · dsimp only
      rw [hmem va ⟨va, .inr hc⟩ (h.cache.aligned _ _ hc)]

theorem fillPage (hf : ¬ Shows k f) (hmod : f % pageSize = 0)
    (c : ℕ → Byte) : Apart k₀ lo hi (fillPage k f c) := by
  have := h.blit hf hmod c 0 (show 0 + pageSize ≤ pageSize by omega)
  rwa [add_zero] at this

theorem deleteFromSwapCache (hf : ¬ Shows k f) : Apart k₀ lo hi (deleteFromSwapCache k f) := by
  rw [PageFault.deleteFromSwapCache]
  rcases he : k.rest.pageSwap f with _ | e
  · exact h
  -- the second address space has no entry for the page
  have hne : ∀ va, pteAt k.rest.other va ≠ e := fun va hva =>
    hf ⟨va, .inr (by rw [hva]; exact (h.cache.iff e f).mpr he)⟩
  have hcache : ∀ va, update k.rest.swapCache e none (pteAt k.rest.other va) =
      k.rest.swapCache (pteAt k.rest.other va) := fun va => update_of_ne (hne va) _ _
  set k' : Sys := { k with rest := { k.rest with
    pageSwap := update k.rest.pageSwap f none
    swapCache := update k.rest.swapCache e none } } with hk'
  have hshows : ∀ {g : ℕ}, Shows k' g ↔ Shows k g := by
    intro g
    simp only [Shows, hk', hcache]
  have hhidden : ∀ {pte : Pte}, Hidden k pte → Hidden k' pte := fun hp =>
    ⟨fun hs => hp.1 (hshows.mp hs), fun hs => hp.2 (hshows.mp hs)⟩
  have hA : Apart k₀ lo hi k' := by
    refine ⟨h.areas, h.other, fun va => ?_, fun g hg => h.shows g (hshows.mp hg), fun g hg =>
      h.held g (hshows.mp hg), ⟨fun e' f' => ?_,
      fun e' f' hc => ?_⟩, hhidden h.empty, hhidden h.bad, fun y hy1 hy2 =>
      ⟨(h.safe y hy1 hy2).1, hhidden (h.safe y hy1 hy2).2⟩, h.tables⟩
    · rw [← h.seen va]
      simp only [PageFault.seen, hk', hcache]
    · have hiff := h.cache.iff e' f'
      have hown := (h.cache.iff e f).mpr he
      simp only [hk', update_apply]
      split_ifs with h1 h2 h2
      · simp
      · subst h1
        refine ⟨nofun, fun hp => absurd ?_ h2⟩
        exact Option.some_inj.mp ((hiff.mpr hp).symm.trans hown)
      · subst h2
        refine ⟨fun hc => absurd ?_ h1, nofun⟩
        exact Option.some_inj.mp ((hiff.mp hc).symm.trans he)
      · exact hiff
    · simp only [hk', update_apply] at hc
      split_ifs at hc with h1
      exact h.cache.aligned e' f' hc
  exact (hA.freePage fun hs => hf (hshows.mp hs)).swapFree e

/-! ### Faults -/

theorem getFreePage {ans : Answer}
    (hget : getFreePage k ans = some (page, k')) : Apart k₀ lo hi k' ∧ ¬ Shows k' page ∧
      page % pageSize = 0 ∧ page < taskSize := by
  rw [PageFault.getFreePage] at hget
  split at hget
  · next p hp =>
    split_ifs at hget with hfree
    obtain ⟨rfl, rfl⟩ : p = page ∧ _ = k' := by simpa using hget
    have hns := h.not_shows hfree
    simp only [isFree, decide_eq_true_eq, Bool.decide_and, Bool.and_eq_true] at hfree
    exact ⟨h.setCount fun _ => one_pos, hns, hfree.1, hfree.2.2.1⟩
  · cases hget

theorem newPage (hns : ¬ Shows k page)
    (hmod : page % pageSize = 0) (hlt : page < taskSize) (c : ℕ → Byte) (vma : VmArea) (addr : ℕ) :
    Apart k₀ lo hi (PageFault.setPte (PageFault.fillPage k page c) addr
      (pteMkwrite (pteMkdirty (mkAreaPte vma page)))) :=
  (h.fillPage hns hmod c).setPte addr (safe_mkAreaPte hmod hlt hns vma)

theorem doAnonymousPage (ans : Answer) (vma : VmArea) (addr : ℕ) :
    Apart k₀ lo hi (doAnonymousPage k ans vma addr true).2 := by
  rw [PageFault.doAnonymousPage, if_pos rfl]
  split
  · exact h
  · next page k' hget =>
    obtain ⟨h', hns, hmod, hlt⟩ := h.getFreePage hget
    exact h'.newPage hns hmod hlt _ vma addr

theorem doNoPage (ans : Answer) (addr : ℕ)
    (hpriv : vma.vmFlags &&& VM_SHARED = 0) : Apart k₀ lo hi (doNoPage k ans vma addr true).2 := by
  rw [PageFault.doNoPage]
  split
  · exact h.unlockKernel.doAnonymousPage ans vma addr
  -- a private area gets a copy of the page
  rw [if_neg (not_not_intro hpriv), nopage, if_pos rfl]
  rcases hget : PageFault.getFreePage k ans with _ | ⟨page, k'⟩
  · exact h.unlockKernel
  · obtain ⟨h', hns, hmod, hlt⟩ := h.getFreePage hget
    exact h'.unlockKernel.newPage hns hmod hlt _ vma addr

end

theorem doWpPage (h : Apart k lo hi k) (ans : Answer) (vma : VmArea) (addr : ℕ)
    (hs : Safe k pte) : Apart k lo hi (doWpPage k ans vma addr pte).2 := by
  have hwrite : Safe k (pteMkdirty (pteMkwrite pte)) := hs.mkwrite.mkdirty
  rw [PageFault.doWpPage]
  split_ifs with hmax h1 h2
  · exact h
  · exact h.unlockKernel.setPte addr hwrite
  · have h' := (h.deleteFromSwapCache hs.2.1).unlockKernel
    exact h'.setPte addr (h'.safe_mono hwrite)
  · split
    · exact h.unlockKernel
    · next newPage k' hget =>
      obtain ⟨h', hns, hmod, hlt⟩ := h.unlockKernel.getFreePage hget
      have h2 := h'.newPage hns hmod hlt
        (if ptePage pte = k'.rest.zeroPage then fun _ => 0 else fun o => k'.mem (ptePage pte + o)) vma
        addr
      exact h2.freePage (h2.safe_mono hs).2.1

theorem handlePteFault (h : Apart k lo hi k) (ans : Answer)
    (hpriv : vma.vmFlags &&& VM_SHARED = 0) (hlo : lo ≤ addr) (hhi : addr < hi) :
    Apart k lo hi (handlePteFault k ans vma addr true).2 := by
  have hs := h.safe addr hlo hhi
  rw [PageFault.handlePteFault]
  dsimp only
  split_ifs with hpres hnone hwr
  · exact h.lockKernel.doNoPage ans addr hpriv
  · exact absurd (swapped_of_not_present (Bool.eq_false_iff.mpr hnone) (Bool.not_eq_true' _ ▸ hpres)) hs.1
  · have h' := h.lockKernel.setPte addr hs.mkyoung
    exact h'.trans (h'.self.doWpPage ans vma addr (h'.safe_mono hs.mkyoung))
  · have h' := h.lockKernel.setPte addr hs.mkyoung
    exact (h'.setPte addr (h'.safe_mono hs.mkyoung.mkdirty)).unlockKernel
  · exact absurd rfl hwr

theorem newSegment (h : Apart k₀ lo hi k) (addr : ℕ) {ste : Ste}
    (hsome : ∀ z, ∃ pte, findPte (fun _ => ste) z = some pte ∧ Safe k pte) :
    Apart k₀ lo hi { k with pgd := update k.pgd (segment addr) ste } ∧
      (findPte (update k.pgd (segment addr) ste) addr).isSome = true := by
  have hself : ∀ z, segment z = segment addr →
      (findPte (update k.pgd (segment addr) ste) z).isSome = true := by
    intro z hz
    obtain ⟨pte, hp, -⟩ := hsome z
    rw [findPte_update_self _ _ hz, hp]
    rfl
  refine ⟨h.withPgd (fun y hy1 hy2 => ?_) fun z hz => ?_, hself addr rfl⟩
  · obtain hy | hy := eq_or_ne (segment y) (segment addr)
    · obtain ⟨pte, hp, hs⟩ := hsome y
      rw [pteAt, findPte_update_self _ _ hy, hp]
      exact hs
    · rw [pteAt, findPte_update_of_ne _ _ hy]
      exact h.safe y hy1 hy2
  · obtain hy | hy := eq_or_ne (segment z) (segment addr)
    · exact hself z hy
    · rw [findPte_update_of_ne _ _ hy]
      exact hz

theorem fault (h : Apart k lo hi k)
    (hpriv : vma.vmFlags &&& VM_SHARED = 0) (hlo : lo ≤ addr) (hhi : addr < hi) :
    Apart k lo hi (fault k vma addr true) ∧
      (findPte (PageFault.fault k vma addr true).pgd addr).isSome = true := by
  have ha := h.withAnswers k.rest.answers.tail
  rw [PageFault.fault, handleMmFault]
  rcases hseg : k.pgd (segment addr) with _ | b | t
  · split_ifs with htable
    · have hnew : ∀ z, ∃ pte, findPte (fun _ => .table fun _ => pteCleared) z = some pte ∧ Safe k pte :=
        fun _ => ⟨pteCleared, rfl, by decide, h.empty⟩
      obtain ⟨h', hsome⟩ := ha.newSegment addr hnew
      have hf := h'.self.handlePteFault (k.rest.answers.headD noAnswer) hpriv hlo hhi
      exact ⟨h'.trans hf, hf.tables addr hsome⟩
    · exact ha.newSegment addr fun z => ⟨_, rfl, badPte_not_swapped _, h.bad⟩
  · refine ⟨ha, ?_⟩
    rw [findPte, hseg]
    rfl
  · have hf := ha.self.handlePteFault (k.rest.answers.headD noAnswer) hpriv hlo hhi
    refine ⟨ha.trans hf, hf.tables addr ?_⟩
    rw [findPte, hseg]
    rfl

end Apart

/-! ### Runs -/

/-- The routines that store into user memory. -/
inductive Writer where
  | copyToUser (va : ℕ) (src : ℕ → Byte) (len : ℕ)
  | clearUser (va len : ℕ)
  | putUserData (data : BitVec 32) (va len : ℕ)

def Writer.range : Writer → ℕ × ℕ
  | copyToUser va _ len => (va, len)
  | clearUser va len => (va, len)
  | putUserData _ va len => (va, len)

/-- The range lies inside writable areas. -/
def inWritable (areas : List VmArea) (va len : ℕ) : Bool :=
  (List.range len).all fun j =>
    (areaAt areas (va + j)).any fun a => a.vmStart ≤ va + j ∧ a.vmFlags &&& VM_WRITE ≠ 0

/-- A call of a writer inside writable areas, with what the rest of the kernel answers to its faults.
`put_user` is for the integer types. -/
def step (k : Sys) (call : Writer × List Answer) : Option Sys :=
  let k := { k with rest := { k.rest with answers := call.2 } }
  if !inWritable k.areas call.1.range.1 call.1.range.2 then none
  else
    match call.1 with
    | .copyToUser va src len => copyToUser fault false k va src len
    | .clearUser va len => some (clearUser fault false k va len)
    | .putUserData data va len =>
      if len = 1 ∨ len = 2 ∨ len = 4 ∨ len = 8 then some (putUserData fault false k data va len)
      else none

/-- The pages that the two address spaces and the swap cache name are held. -/
structure Consistent (k : Sys) : Prop where
  current : ∀ va, ptePresent (pteAt k.pgd va) = true → Held k (ptePage (pteAt k.pgd va))
  other : ∀ va, ptePresent (pteAt k.rest.other va) = true → Held k (ptePage (pteAt k.rest.other va))
  cached : ∀ e f, k.rest.swapCache e = some f → Held k f
  cache : CacheOk k

namespace Consistent

theorem held_set (h : ptePresent pte = true → Held k (ptePage pte))
    (hp : ptePresent (setPteVal pte) = true) : Held k (ptePage (setPteVal pte)) := by
  rw [setPteVal] at hp ⊢
  split_ifs at hp ⊢ with h0
  · exact h hp
  · cases hp

theorem held_putPte {pgd : Pgd} (h : ∀ va, ptePresent (pteAt pgd va) = true →
    Held k (ptePage (pteAt pgd va))) (addr : ℕ)
    (hpte : ptePresent pte = true → Held k (ptePage pte)) (va : ℕ)
    (hp : ptePresent (pteAt (putPte pgd addr (setPteVal pte)) va) = true) :
    Held k (ptePage (pteAt (putPte pgd addr (setPteVal pte)) va)) := by
  by_cases hplace : segment va = segment addr ∧ pteIndex va = pteIndex addr
  · rw [pteAt_of_place _ hplace, pteAt_putPte_self] at hp ⊢
    exact held_set hpte hp
  · rw [pteAt_putPte_of_place _ _ hplace] at hp ⊢
    exact h va hp

section

variable (h : Consistent k) (addr : ℕ) (hpte : ptePresent pte = true → Held k (ptePage pte))
include h addr hpte

theorem setPte : Consistent (setPte k addr pte) :=
  ⟨held_putPte h.current addr hpte, h.other, h.cached, h.cache.iff, h.cache.aligned⟩

theorem setOther : Consistent (setOther k addr pte) :=
  ⟨h.current, held_putPte h.other addr hpte, h.cached, h.cache.iff, h.cache.aligned⟩

end

theorem setCount (h : Consistent k) (f n : ℕ) : Consistent (setCount k f (n + 1)) :=
  have hh : ∀ {g}, Held k g → Held (PageFault.setCount k f (n + 1)) g := fun hg =>
    held_setCount (fun _ => n.succ_pos) fun _ => hg
  ⟨fun va hp => hh (h.current va hp), fun va hp => hh (h.other va hp),
    fun e f hc => hh (h.cached e f hc), h.cache.iff, h.cache.aligned⟩

theorem copyOnePte (h : Consistent k) (vma : VmArea) (addr : ℕ) : Consistent (copyOnePte vma k addr) := by
  -- the page of the entry is held once it is counted
  have hcount := h.setCount (ptePage (pteAt k.pgd addr)) (k.rest.count (ptePage (pteAt k.pgd addr)))
  have hheld : ∀ {pte : Pte}, ptePage pte = ptePage (pteAt k.pgd addr) → ptePresent pte = true →
      Held (PageFault.setCount k (ptePage (pteAt k.pgd addr))
        (k.rest.count (ptePage (pteAt k.pgd addr)) + 1)) (ptePage pte) :=
    fun he _ => held_setCount (fun _ => Nat.succ_pos _) fun hne => absurd he hne
  rw [PageFault.copyOnePte]
  dsimp only
  split_ifs with hnone hpres hres hcow hshared hshared
  · exact h
  · have h' : Consistent (swapDuplicate k (pteAt k.pgd addr)) :=
      { h with cache := { h.cache with } }
    exact h'.setOther addr (h.current addr)
  · exact h.setOther addr (h.current addr)
  · exact (hcount.setPte addr (hheld (by simp))).setOther addr (hheld (by simp))
  · exact (hcount.setPte addr (hheld (by simp))).setOther addr (hheld (by simp))
  · exact hcount.setOther addr (hheld (by simp))
  · exact hcount.setOther addr (hheld (by simp))

theorem otherTable (h : Consistent k) {tables : ℕ → Bool} {addr : ℕ} {k' : Sys}
    (heq : otherTable tables k addr = (true, k')) : Consistent k' := by
  rw [PageFault.otherTable] at heq
  split at heq
  · obtain ⟨ht, rfl⟩ := Prod.mk.inj heq
    refine ⟨h.current, fun va hp => ?_, h.cached, h.cache.iff, h.cache.aligned⟩
    obtain hs | hs := eq_or_ne (segment va) (segment addr)
    · -- the new table is empty
      rw [pteAt, findPte_update_self _ _ hs, if_pos ht] at hp
      cases show ptePresent pteCleared = true from hp
    · rw [pteAt, findPte_update_of_ne _ _ hs] at hp ⊢
      exact h.other va hp
  · obtain ⟨-, rfl⟩ := Prod.mk.inj heq
    exact h

theorem copyLoop (tables : ℕ → Bool) (vma : VmArea) (n : ℕ) : ∀ (k k' : Sys) (addr : ℕ),
    Consistent k → copyLoop tables vma n k addr = (true, k') → Consistent k' := by
  induction n with
  | zero =>
    intro k k' addr h heq
    obtain ⟨-, rfl⟩ := Prod.mk.inj heq
    exact h
  | succ n ih =>
    intro k k' addr h heq
    rw [PageFault.copyLoop] at heq
    split at heq
    · dsimp only at heq
      split_ifs at heq
      · obtain ⟨-, rfl⟩ := Prod.mk.inj heq
        exact h
      · exact ih _ _ _ h heq
    · split at heq
      · cases heq
      · next k₁ hother =>
        have h₁ := (h.otherTable hother).copyOnePte vma addr
        split_ifs at heq
        · obtain ⟨-, rfl⟩ := Prod.mk.inj heq
          exact h₁
        · exact ih _ _ _ h₁ heq

end Consistent

end I370Linux.PageFault
