import I370Linux.Runs
import I370Linux.Vma
import I370Linux.Intervals

/-! # The areas of vmalloc

The model of `get_vm_area`, `vfree` and `vmalloc` of `mm/vmalloc.c` on the list `vmlist`.  Words are
natural numbers and the sums are taken modulo `2 ^ 32`, as the unsigned arithmetic of the walk is.
The outcome of `kmalloc` is a parameter of the call.  `vmalloc` sleeps in `vmalloc_area_pages` with its area
entered already; where that fails the call goes on with `vfree`, which is a step of its own.  The kernel page
tables are left out.

The walk of `get_vm_area` takes the first gap that is large enough, and the limit `VMALLOC_END` is
tested only on the way from one area to the next: the place after the last area is taken without a
test.  `InOrder` is the layout that the list has as long as every area that is entered ends by `VMALLOC_END`,
and `place_ends_iff` says on the gaps when it does: one is large enough, or the walk gives up. -/

namespace I370Linux.Vmalloc

open Runs Intervals
open Vma (pageSize pageAlign)

abbrev vmallocStart : ℕ := 0x40000000
abbrev vmallocEnd : ℕ := 0x7fffe000

/-- A `vm_struct`; the size includes the guard page. -/
structure VmStruct where
  addr : ℕ
  size : ℕ
deriving DecidableEq, Repr

namespace VmStruct

def limit (a : VmStruct) : ℕ := a.addr + a.size

end VmStruct

/-! ### The calls -/

/-- The loop of `get_vm_area` from the place `addr`, with the entry of the new area: its address and
the list with it, or `none` where the loop gives up. -/
def place (size : ℕ) : ℕ → List VmStruct → Option (ℕ × List VmStruct)
  | addr, [] => some (addr, [⟨addr, (size + pageSize) % 2 ^ 32⟩])
  | addr, tmp :: l =>
    if (size + addr) % 2 ^ 32 < tmp.addr then
      some (addr, ⟨addr, (size + pageSize) % 2 ^ 32⟩ :: tmp :: l)
    else if (vmallocEnd + 2 ^ 32 - size) % 2 ^ 32 < addr then none
    else (place size ((tmp.size + tmp.addr) % 2 ^ 32) l).map fun r => (r.1, tmp :: r.2)

def getVmArea (kmalloc : Bool) (size : ℕ) (vmlist : List VmStruct) :
    Option (ℕ × List VmStruct) :=
  if kmalloc then place size vmallocStart vmlist else none

/-- The loop of `vfree`: the first area at the address is taken out. -/
def vfreeLoop (addr : ℕ) : List VmStruct → List VmStruct
  | [] => []
  | tmp :: l => if tmp.addr = addr then l else tmp :: vfreeLoop addr l

def vfree (addr : ℕ) (vmlist : List VmStruct) : List VmStruct :=
  if addr = 0 then vmlist
  else if addr % pageSize ≠ 0 then vmlist
  else vfreeLoop addr vmlist

/-- The size that `vmalloc` asks an area for. -/
def vmallocSize (maxMapnr size : ℕ) : Option ℕ :=
  if pageAlign size = 0 ∨ (maxMapnr * pageSize) % 2 ^ 32 < pageAlign size then none
  else some (pageAlign size)

/-- `vmalloc` up to `vmalloc_area_pages`. -/
def vmalloc (maxMapnr : ℕ) (kmalloc : Bool) (size : ℕ) (vmlist : List VmStruct) : Option (ℕ × List VmStruct) :=
  (vmallocSize maxMapnr size).bind fun size => getVmArea kmalloc size vmlist

inductive Call
  | getVmArea (size : ℕ) (kmalloc : Bool)
  | vmalloc (size : ℕ) (kmalloc : Bool)
  | vfree (addr : ℕ)
deriving DecidableEq, Repr

/-- The list after a call.  `get_vm_area` is called with whole pages, at most those of memory, and
`vmalloc` with any word. -/
def step (maxMapnr : ℕ) (vmlist : List VmStruct) : Call → Option (List VmStruct)
  | .getVmArea size kmalloc =>
    if size % pageSize = 0 ∧ size ≤ maxMapnr * pageSize ∧ size < 2 ^ 32 then
      some ((getVmArea kmalloc size vmlist).elim vmlist Prod.snd)
    else none
  | .vmalloc size kmalloc =>
    if size < 2 ^ 32 then some ((vmalloc maxMapnr kmalloc size vmlist).elim vmlist Prod.snd) else none
  | .vfree addr => some (vfree addr vmlist)

/-! ### The layout -/

/-- The areas are whole pages, none is empty, and they follow each other from `VMALLOC_START` to
`VMALLOC_END`. -/
structure InOrder (vmlist : List VmStruct) : Prop where
  laidOut : LaidOut VmStruct.addr VmStruct.limit vmallocStart vmallocEnd vmlist
  whole : ∀ a ∈ vmlist, a.addr % pageSize = 0 ∧ a.size % pageSize = 0 ∧ 0 < a.size

/-- The gaps from `addr` on, before, between and behind the areas. -/
def gaps (addr : ℕ) : List VmStruct → List (ℕ × ℕ)
  | [] => [(addr, vmallocEnd)]
  | tmp :: l => (addr, tmp.addr) :: gaps tmp.limit l

/-- A gap has room for `size` and its guard page, or a gap with an area behind it starts less than `size` below
`VMALLOC_END`. -/
def fitsFrom (size addr : ℕ) (l : List VmStruct) : Bool :=
  (gaps addr l).any (fun g => g.1 + size + pageSize ≤ g.2) ||
    (gaps addr l).dropLast.any fun g => size ≤ vmallocEnd ∧ vmallocEnd < g.1 + size

theorem InOrder.nil : InOrder [] := ⟨laidOut_nil.mpr (by decide), by simp⟩

variable {l vmlist : List VmStruct} {maxMapnr size : ℕ}

theorem InOrder.sorted (h : InOrder vmlist) : vmlist.Pairwise fun a b => a.addr < b.addr := by
  refine (List.Pairwise.imp_of_mem ?_ (laidOut_iff.mp h.laidOut).2.2)
  intro a b ha _ hab
  have := (h.whole a ha).2.2
  unfold VmStruct.limit at hab
  omega

theorem vfreeLoop_sublist (addr : ℕ) : ∀ l : List VmStruct, (vfreeLoop addr l).Sublist l
  | [] => List.Sublist.refl []
  | tmp :: l => by
    unfold vfreeLoop
    by_cases h : tmp.addr = addr
    · rw [if_pos h]
      exact List.sublist_cons_self tmp l
    · rw [if_neg h]
      exact (vfreeLoop_sublist addr l).cons_cons tmp

theorem InOrder.sublist {l' : List VmStruct} (h : InOrder l) (hl : l'.Sublist l) : InOrder l' :=
  ⟨h.laidOut.sublist hl, fun a ha => h.whole a (hl.subset ha)⟩

theorem InOrder.vfree (h : InOrder l) (addr : ℕ) : InOrder (vfree addr l) := by
  unfold Vmalloc.vfree
  split_ifs
  · exact h
  · exact h
  · exact h.sublist (vfreeLoop_sublist addr l)

section Walk

/-- Where the walk enters an area that ends by `VMALLOC_END`, the area lies in a gap and the list
stays laid out. -/
theorem place_spec (hsize : size % pageSize = 0) : ∀ {addr : ℕ} {l : List VmStruct} {r},
    LaidOut VmStruct.addr VmStruct.limit addr vmallocEnd l →
    (∀ a ∈ l, a.addr % pageSize = 0 ∧ a.size % pageSize = 0 ∧ 0 < a.size) →
    addr % pageSize = 0 → place size addr l = some r → r.1 + size + pageSize ≤ vmallocEnd →
    LaidOut VmStruct.addr VmStruct.limit addr vmallocEnd r.2 ∧
      (∀ a ∈ r.2, a.addr % pageSize = 0 ∧ a.size % pageSize = 0 ∧ 0 < a.size) ∧
      Free VmStruct.addr VmStruct.limit addr vmallocEnd l r.1 (r.1 + size + pageSize)
  | addr, [], r, hl, _, haddr, hp, hr => by
    simp only [place, Option.some.injEq] at hp
    subst hp
    simp only [pageSize, vmallocEnd, laidOut_cons, laidOut_nil, free_nil, VmStruct.limit,
      List.mem_singleton, forall_eq] at *
    omega
  | addr, tmp :: l, r, hl, hw, haddr, hp, hr => by
    obtain ⟨hlo, hle, hrest⟩ := hl
    rw [List.forall_mem_cons] at hw
    have htmp := (laidOut_iff.mp hrest).1
    unfold place at hp
    by_cases hfit : (size + addr) % 2 ^ 32 < tmp.addr
    · rw [if_pos hfit, Option.some.injEq] at hp
      subst hp
      -- whole pages: one below the next area by less than a page is at least a page below it
      have hgap : addr + size + pageSize ≤ tmp.addr := by
        simp only [pageSize, vmallocEnd] at *
        omega
      have hnew : (size + pageSize) % 2 ^ 32 = size + pageSize := by
        simp only [pageSize, vmallocEnd] at *
        omega
      rw [hnew]
      have hlimit : addr ≤ (⟨addr, size + pageSize⟩ : VmStruct).limit ∧
          (⟨addr, size + pageSize⟩ : VmStruct).limit ≤ tmp.addr := by
        simp only [VmStruct.limit]
        omega
      refine ⟨⟨le_rfl, hlimit.1, hlimit.2, hle, hrest⟩, ?_, Free.of_before ⟨hlo, hle, hrest⟩ le_rfl hgap⟩
      · rw [List.forall_mem_cons, List.forall_mem_cons]
        refine ⟨⟨haddr, ?_, ?_⟩, hw⟩
        · simp only [pageSize] at *
          omega
        · exact Nat.add_pos_right _ (by decide)
    · rw [if_neg hfit] at hp
      split_ifs at hp with hlim
      obtain ⟨r', hr', rfl⟩ := Option.map_eq_some_iff.mp hp
      have hnext : (tmp.size + tmp.addr) % 2 ^ 32 = tmp.limit := by
        simp only [VmStruct.limit, vmallocEnd] at *
        omega
      have hpage : tmp.limit % pageSize = 0 := by
        simp only [pageSize, vmallocEnd] at *
        omega
      rw [hnext] at hr'
      obtain ⟨hl', hw', hfree⟩ := place_spec hsize hrest hw.2 hpage hr' hr
      refine ⟨⟨hlo, hle, hl'⟩, ?_, hfree.cons hlo hle⟩
      rw [List.forall_mem_cons]
      exact ⟨hw.1, hw'⟩

end Walk

theorem fitsFrom_cons {tmp : VmStruct} {addr : ℕ} : fitsFrom size addr (tmp :: l) = true ↔
    addr + size + pageSize ≤ tmp.addr ∨ (size ≤ vmallocEnd ∧ vmallocEnd < addr + size) ∨
      fitsFrom size tmp.limit l = true := by
  have hne : gaps tmp.limit l ≠ [] := by cases l <;> simp [gaps]
  simp only [fitsFrom, gaps, List.dropLast_cons_of_ne_nil hne, List.any_cons, Bool.or_eq_true, decide_eq_true_eq]
  tauto

theorem le_of_fitsFrom {addr : ℕ} (hl : LaidOut VmStruct.addr VmStruct.limit addr vmallocEnd l)
    (h : fitsFrom size addr l = true) : size ≤ vmallocEnd := by
  induction l generalizing addr with
  | nil =>
    simp only [fitsFrom, gaps, List.any_cons, List.any_nil, List.dropLast_singleton, Bool.or_false,
      decide_eq_true_eq] at h
    omega
  | cons tmp l ih =>
    obtain ⟨hlo, hle, hrest⟩ := hl
    have htmp := (laidOut_iff.mp hrest).1
    obtain h | h | h := fitsFrom_cons.mp h
    · omega
    · exact h.1
    · exact ih hrest h

/-- The area that the walk enters, if any, ends by `VMALLOC_END` exactly if it `fitsFrom` the start of the walk. -/
theorem place_ends_iff (hsize : size % pageSize = 0) (hword : size < 2 ^ 32) : ∀ {addr : ℕ} {l : List VmStruct},
    LaidOut VmStruct.addr VmStruct.limit addr vmallocEnd l →
    (∀ a ∈ l, a.addr % pageSize = 0 ∧ a.size % pageSize = 0 ∧ 0 < a.size) → addr % pageSize = 0 →
    ((∀ r, place size addr l = some r → r.1 + size + pageSize ≤ vmallocEnd) ↔ fitsFrom size addr l = true)
  | addr, [], _, _, _ => by simp [place, fitsFrom, gaps]
  | addr, tmp :: l, hl, hw, haddr => by
    have hbig : fitsFrom size addr (tmp :: l) = true → size ≤ vmallocEnd := le_of_fitsFrom hl
    obtain ⟨hlo, hle, hrest⟩ := hl
    rw [List.forall_mem_cons] at hw
    have htmp := (laidOut_iff.mp hrest).1
    rw [place]
    by_cases hfit : (size + addr) % 2 ^ 32 < tmp.addr
    · simp only [if_pos hfit, Option.some.injEq, forall_eq']
      -- where the sum has wrapped around, the size is beyond `VMALLOC_END`
      by_cases hwrap : size ≤ vmallocEnd
      · refine iff_of_true ?_ (fitsFrom_cons.mpr (.inl ?_)) <;> (simp only [pageSize, vmallocEnd] at *; omega)
      · exact iff_of_false (by omega) fun h => hwrap (hbig h)
    rw [if_neg hfit, fitsFrom_cons, or_iff_right (by simp only [pageSize, vmallocEnd] at *; omega)]
    by_cases hlim : (vmallocEnd + 2 ^ 32 - size) % 2 ^ 32 < addr
    · rw [if_pos hlim]
      exact iff_of_true (by simp) (.inl (by simp only [vmallocEnd] at *; omega))
    have hnext : (tmp.size + tmp.addr) % 2 ^ 32 = tmp.limit := by
      simp only [VmStruct.limit, vmallocEnd] at *
      omega
    have hpage : tmp.limit % pageSize = 0 := by
      simp only [pageSize, VmStruct.limit] at *
      omega
    rw [if_neg hlim, hnext, or_iff_right (by simp only [vmallocEnd] at *; omega),
      ← place_ends_iff hsize hword hrest hw.2 hpage]
    simp only [Option.map_eq_some_iff, forall_exists_index, and_imp, forall_apply_eq_imp_iff₂]

/-! ### Runs -/

/-- The size for which a call looks for a place. -/
def Call.asks (maxMapnr : ℕ) : Call → Option ℕ
  | .getVmArea size kmalloc => if kmalloc then some size else none
  | .vmalloc size kmalloc => if kmalloc then vmallocSize maxMapnr size else none
  | .vfree _ => none

/-- The size that a call asks for, if any, fits. -/
def fits (maxMapnr : ℕ) (vmlist : List VmStruct) (c : Call) : Bool :=
  (c.asks maxMapnr).all (fitsFrom · vmallocStart vmlist)

theorem InOrder.place_ends_iff (h : InOrder vmlist) (hsize : size % pageSize = 0) (hword : size < 2 ^ 32) :
    (∀ r, place size vmallocStart vmlist = some r → r.1 + size + pageSize ≤ vmallocEnd) ↔
      fitsFrom size vmallocStart vmlist = true :=
  Vmalloc.place_ends_iff hsize hword h.laidOut h.whole (by decide)

theorem InOrder.place (h : InOrder vmlist) (hsize : size % pageSize = 0) (hword : size < 2 ^ 32)
    (hfit : fitsFrom size vmallocStart vmlist = true) {r : ℕ × List VmStruct}
    (hp : place size vmallocStart vmlist = some r) : InOrder r.2 := by
  have hend := (h.place_ends_iff hsize hword).mpr hfit r hp
  obtain ⟨hl, hw, -⟩ := place_spec hsize h.laidOut h.whole (by decide) hp hend
  exact ⟨hl, hw⟩

theorem vmallocSize_whole {n : ℕ} (h : vmallocSize maxMapnr size = some n) : n % pageSize = 0 ∧ n < 2 ^ 32 := by
  unfold vmallocSize at h
  split_ifs at h with hsize
  cases h
  refine ⟨Nat.mul_mod_left _ _, ?_⟩
  exact lt_of_le_of_lt (Nat.not_lt.mp (not_or.mp hsize).2) (Nat.mod_lt _ (by decide))

/-- What a call does to the list: it frees an address, or it enters an area for the size it asks for. -/
theorem step_cases {vmlist' : List VmStruct} {c : Call} (hstep : step maxMapnr vmlist c = some vmlist') :
    (∃ addr, c = .vfree addr ∧ vmlist' = vfree addr vmlist) ∨ vmlist' = vmlist ∨
      ∃ n r, c.asks maxMapnr = some n ∧ n % pageSize = 0 ∧ n < 2 ^ 32 ∧ place n vmallocStart vmlist = some r ∧
        vmlist' = r.2 := by
  cases c with
  | getVmArea size kmalloc =>
    obtain ⟨hsize, rfl⟩ := of_guard hstep
    cases kmalloc with
    | false => exact .inr (.inl rfl)
    | true =>
      cases hp : place size vmallocStart vmlist with
      | none => exact .inr (.inl (by simp [getVmArea, hp]))
      | some r => exact .inr (.inr ⟨size, r, rfl, hsize.1, hsize.2.2, hp, by simp [getVmArea, hp]⟩)
  | vmalloc size kmalloc =>
    obtain ⟨-, rfl⟩ := of_guard hstep
    cases kmalloc with
    | false => exact .inr (.inl (by cases hn : vmallocSize maxMapnr size <;> simp [vmalloc, getVmArea, hn]))
    | true =>
      cases hn : vmallocSize maxMapnr size with
      | none => exact .inr (.inl (by simp [vmalloc, hn]))
      | some n =>
        obtain ⟨hwhole, hword⟩ := vmallocSize_whole hn
        cases hp : place n vmallocStart vmlist with
        | none => exact .inr (.inl (by simp [vmalloc, getVmArea, hn, hp]))
        | some r => exact .inr (.inr ⟨n, r, hn, hwhole, hword, hp, by simp [vmalloc, getVmArea, hn, hp]⟩)
  | vfree addr =>
    cases hstep
    exact .inl ⟨addr, rfl, rfl⟩

theorem InOrder.step {vmlist' : List VmStruct} (h : InOrder vmlist) (c : Call) (hfit : fits maxMapnr vmlist c = true)
    (hstep : step maxMapnr vmlist c = some vmlist') : InOrder vmlist' := by
  obtain ⟨addr, rfl, rfl⟩ | rfl | ⟨n, r, hasks, hwhole, hword, hp, rfl⟩ := step_cases hstep
  · exact h.vfree addr
  · exact h
  · exact h.place hwhole hword (by simpa [fits, hasks] using hfit) hp

theorem InOrder.of_run (hr : ReachesBy (Vmalloc.step maxMapnr) (fun s c => fits maxMapnr s c = true) [] vmlist) :
    InOrder vmlist :=
  hr.invariant InOrder.nil fun _ c _ hs hfit hstep => hs.step c hfit hstep

theorem place_undone : ∀ {addr : ℕ} {l : List VmStruct} {r}, place size addr l = some r →
    (r.2.Pairwise fun a b => a.addr < b.addr) → vfreeLoop r.1 r.2 = l ∧ ∃ a ∈ r.2, a.addr = r.1
  | addr, [], r, hp, _ => by
    cases hp
    simp [vfreeLoop]
  | addr, tmp :: l, r, hp, hsorted => by
    unfold place at hp
    split_ifs at hp
    · cases hp
      simp [vfreeLoop]
    · obtain ⟨r', hr', rfl⟩ := Option.map_eq_some_iff.mp hp
      obtain ⟨hlt, hsorted'⟩ := List.pairwise_cons.mp hsorted
      obtain ⟨hundone, a, ha, haddr⟩ := place_undone hr' hsorted'
      refine ⟨?_, a, List.mem_cons_of_mem tmp ha, haddr⟩
      rw [vfreeLoop, if_neg (haddr ▸ (hlt a ha).ne), hundone]

theorem place_subset : ∀ {addr : ℕ} {l : List VmStruct} {r}, place size addr l = some r → l ⊆ r.2
  | _, [], _, _ => List.nil_subset _
  | addr, tmp :: l, r, hp => by
    unfold place at hp
    split_ifs at hp
    · cases hp
      exact List.subset_cons_self _ _
    · obtain ⟨r', hr', rfl⟩ := Option.map_eq_some_iff.mp hp
      exact List.cons_subset_cons tmp (place_subset hr')

theorem mem_vfreeLoop {addr : ℕ} {a : VmStruct} (ha : a.addr ≠ addr) : ∀ {l}, a ∈ l → a ∈ vfreeLoop addr l
  | tmp :: l, hmem => by
    unfold vfreeLoop
    obtain rfl | hmem := List.mem_cons.mp hmem
    · simp [ha]
    · split
      · exact hmem
      · exact List.mem_cons_of_mem tmp (mem_vfreeLoop ha hmem)

/-- The area of an address goes, the other ones stay. -/
theorem vfreeLoop_eq_filter (addr : ℕ) : ∀ {l : List VmStruct}, (l.Pairwise fun a b => a.addr < b.addr) →
    vfreeLoop addr l = l.filter (·.addr ≠ addr)
  | [], _ => rfl
  | tmp :: l, hsorted => by
    obtain ⟨hlt, hsorted⟩ := List.pairwise_cons.mp hsorted
    rw [vfreeLoop, List.filter_cons]
    by_cases h : tmp.addr = addr
    · subst h
      rw [if_pos rfl, if_neg (by simp)]
      exact (List.filter_eq_self.mpr fun a ha => by simpa using (hlt a ha).ne').symm
    · simp [h, vfreeLoop_eq_filter addr hsorted]

theorem InOrder.vfree_eq (h : InOrder vmlist) {a : VmStruct} (ha : a ∈ vmlist) :
    Vmalloc.vfree a.addr vmlist = vfreeLoop a.addr vmlist := by
  have hlow := ((laidOut_iff.mp h.laidOut).2.1 a ha).1
  have hpos : 0 < a.addr := lt_of_lt_of_le (by decide) hlow
  rw [Vmalloc.vfree, if_neg hpos.ne', if_neg (not_not.mpr (h.whole a ha).1)]

/-- **vmalloc is undone.**  While a `vmalloc` sleeps with its area entered, other calls that fit, and free other addresses, go
on.  The area stays, and `vfree` of its address, by the `vmalloc` that fails or by its owner, takes out that area and no other;
without other calls it restores the list from before. -/
theorem vmalloc_undone (hr : ReachesBy (step maxMapnr) (fun s c => fits maxMapnr s c = true) [] vmlist)
    {kmalloc : Bool} (hfit : fits maxMapnr vmlist (.vmalloc size kmalloc) = true) {r : ℕ × List VmStruct}
    (hcall : vmalloc maxMapnr kmalloc size vmlist = some r) {vmlist' : List VmStruct}
    (hsleep : ReachesBy (step maxMapnr) (fun s c => fits maxMapnr s c = true ∧ c ≠ .vfree r.1) r.2 vmlist') :
    (∃ a ∈ vmlist', a.addr = r.1) ∧ vfree r.1 vmlist' = vmlist'.filter (·.addr ≠ r.1) ∧ vfree r.1 r.2 = vmlist := by
  obtain ⟨n, hn, hg⟩ := Option.bind_eq_some_iff.mp hcall
  obtain ⟨rfl, hp⟩ := (Option.ite_none_right_eq_some (p := kmalloc = true)).mp hg
  obtain ⟨hwhole, hword⟩ := vmallocSize_whole hn
  have hin := (InOrder.of_run hr).place hwhole hword (by simpa [fits, Call.asks, hn] using hfit) hp
  obtain ⟨hundone, a, ha, haddr⟩ := place_undone hp hin.sorted
  have h : InOrder vmlist' ∧ a ∈ vmlist' := by
    refine hsleep.invariant (I := fun l => InOrder l ∧ a ∈ l) ⟨hin, ha⟩ fun l c l' hl hc hstep => ?_
    refine ⟨hl.1.step c hc.1 hstep, ?_⟩
    obtain ⟨addr, rfl, rfl⟩ | rfl | ⟨n, r', -, -, -, hp', rfl⟩ := step_cases hstep
    · have hne : a.addr ≠ addr := fun he => hc.2 (by rw [← haddr, he])
      unfold vfree
      split_ifs
      exacts [hl.2, hl.2, mem_vfreeLoop hne hl.2]
    · exact hl.2
    · exact place_subset hp' hl.2
  refine ⟨⟨a, h.2, haddr⟩, ?_⟩
  rw [← haddr, h.1.vfree_eq h.2, hin.vfree_eq ha, vfreeLoop_eq_filter _ h.1.sorted, haddr]
  exact ⟨rfl, hundone⟩

/-- A second `vmalloc` sleeps while a third area is entered behind its own and the first one is freed. -/
theorem vmalloc_undone_three : vfree 0x40003000 [⟨0x40003000, 0x2000⟩, ⟨0x40005000, 0x2000⟩] = [⟨0x40005000, 0x2000⟩] := by
  have hcall : vmalloc 0x10000 true 1 [⟨0x40000000, 0x3000⟩] =
      some (0x40003000, [⟨0x40000000, 0x3000⟩, ⟨0x40003000, 0x2000⟩]) := rfl
  have hr : ReachesBy (step 0x10000) (fun s c => fits 0x10000 s c = true) [] [⟨0x40000000, 0x3000⟩] :=
    ReachesBy.of_exec [.getVmArea 0x2000 true] _ _ (by decide)
  exact (vmalloc_undone hr (by decide) hcall (((ReachesBy.refl _).tail (a := .getVmArea 0x1000 true)
    ⟨by decide, by decide⟩ rfl).tail (a := .vfree 0x40000000) ⟨by decide, by decide⟩ rfl)).2.1

end I370Linux.Vmalloc
