import I370Linux.Runs
import I370Linux.Links

/-! # The slab allocator of a cache

A cache (`mm/slab.c`) keeps its slabs in a ring closed by `kmem_slab_end`, which overlays the cache
itself, and the free objects of a slab in a list through their bufctls.  Everything that touches the ring
runs under the lock of the cache, so a run is a sequence of locked sections: one attempt of
`__kmem_cache_alloc`, the two sections of `kmem_cache_grow`, `__kmem_cache_free`, and one turn of the
loops of `kmem_cache_reap` and `kmem_cache_shrink`; a slab these take out is destroyed without the lock.
The allocator is built without `SLAB_DEBUG_SUPPORT`.

`Sane` says what the sections rely on: the ring with the full slabs first, `c_freep` on the first slab
with a free object, and for every slab of the ring a free list that holds just the objects no caller
has.  This module gives the functions and what they do to the slabs; the ring is in `SlabSections`. -/

namespace I370Linux.Slab

open Runs Links Function List

/-! ### The cache -/

/-- An object of a cache and its bufctl: the slab and the number within it. -/
abbrev Obj := ℕ × ℕ

/-- What the word of a bufctl was last written as. -/
inductive Bufctl where
  | nextp (bufp : Option Obj)
  | slabp (s : ℕ)
  | objp (objp : Obj)
  deriving DecidableEq, Repr

/-- The management struct of a slab; the links are kept in the cache. -/
structure KmemSlab where
  sFreep : Option Obj
  /-- An index of bufctls is present. -/
  sIndex : Bool
  sMagic : BitVec 32
  sInuse : ℕ
  sDma : Bool
  deriving DecidableEq, Repr

def slabMagicAlloc : BitVec 32 := 0xA5C32F2B

def slabMagicDestroyed : BitVec 32 := 0xB2F23C5A

/-- A cache, its slabs and bufctls.  A slab pointer is `none` for `kmem_slab_end`; of this slab the
fields are those of the cache, `c_firstp` and `c_lastp` its links, `c_inuse` (never other than zero) its
count and `c_magic` (not `SLAB_MAGIC_ALLOC`) its magic number. -/
structure KmemCache where
  cFreep : Option ℕ
  cNum : ℕ
  /-- `SLAB_BUFCTL(c_flags)`: the bufctls are not behind the objects but in an index. -/
  cBufctl : Bool
  cGrowing : ℕ
  links : DLinks ℕ
  slab : ℕ → KmemSlab
  buf : Obj → Bufctl
  /-- The objects that callers hold. -/
  live : Obj → Bool
  /-- The memory of the slab is the cache's. -/
  owned : ℕ → Bool
  /-- The slab is out of the ring and about to be destroyed. -/
  dying : ℕ → Bool

namespace KmemCache

variable (c : KmemCache)

/-- The field `s_inuse` behind a slab pointer. -/
def inuse : Option ℕ → ℕ
  | none => 0
  | some s => (c.slab s).sInuse

/-- The field `buf_nextp` of a bufctl. -/
def bufNextp (o : Obj) : Option Obj :=
  match c.buf o with
  | .nextp bufp => bufp
  | _ => none

/-! ### The chain -/

def kmemSlabUnlink (s : ℕ) : KmemCache := { c with links := c.links.unlink s }

def kmemSlabLinkEnd (s : ℕ) : KmemCache := { c with links := c.links.insertBefore none s }

def kmemSlabLinkFree (s : ℕ) : KmemCache := { c with links := c.links.insertBefore c.cFreep s }

/-- Look for a slab for DMA behind the first one with free objects, and put it first. -/
def kmemCacheSearchDma (fuel : ℕ) : Option (KmemCache × Option ℕ) :=
  match seek (fun s => c.links.next (some s)) (fun s => (c.slab s).sDma) (fun _ => false) fuel
      (c.links.next c.cFreep) with
  | none => none
  | some none => some (c, none)
  | some (some s) => some ({ (c.kmemSlabUnlink s).kmemSlabLinkFree s with cFreep := some s }, some s)

/-! ### Allocation -/

/-- Take the first free object of a slab, from `try_again_dma` to the return; `none` is the fault at
a null bufctl. -/
def takeObj (s : ℕ) : Option (KmemCache × Obj) :=
  match (c.slab s).sFreep with
  | none => none
  | some bufp =>
    some ({ c with
      slab := update c.slab s
        { c.slab s with sInuse := (c.slab s).sInuse + 1, sFreep := c.bufNextp bufp }
      cFreep := if (c.bufNextp bufp).isNone then c.links.next (some s) else c.cFreep
      buf := update c.buf bufp (if (c.slab s).sIndex then .objp bufp else .slabp s)
      live := update c.live bufp true }, bufp)

inductive AllocResult where
  | obj (o : Obj)
  /-- The lock is dropped to call `kmem_cache_grow`. -/
  | grow
  /-- `Bad slab magic (corrupt)` -/
  | corrupt
  deriving DecidableEq, Repr

/-- One attempt of `__kmem_cache_alloc`, from `try_again` on. -/
def kmemCacheAlloc (dma : Bool) (fuel : ℕ) : Option (KmemCache × AllocResult) :=
  match c.cFreep with
  | none => some (c, .grow)
  | some s =>
    if (c.slab s).sMagic ≠ slabMagicAlloc then some (c, .corrupt)
    else if dma && !(c.slab s).sDma then
      match c.kmemCacheSearchDma fuel with
      | none => none
      | some (c', none) => some (c', .grow)
      | some (c', some s') => (c'.takeObj s').map fun r => (r.1, .obj r.2)
    else (c.takeObj s).map fun r => (r.1, .obj r.2)

/-! ### Growing -/

/-- The first section of `kmem_cache_grow`. -/
def growBegin : KmemCache := { c with cGrowing := c.cGrowing + 1 }

/-- The section at `failed`. -/
def growFail : KmemCache := { c with cGrowing := c.cGrowing - 1 }

/-- The order in which `kmem_cache_init_objs` enters the objects: by address, or from the last of the
index. -/
def objOrder (s : ℕ) : List Obj :=
  (if c.cBufctl then (List.range c.cNum).reverse else List.range c.cNum).map (s, ·)

def chainBufs : List Obj → (Obj → Bufctl) → Obj → Bufctl
  | [], buf => buf
  | o :: l, buf => update (chainBufs l buf) o (.nextp l.head?)

/-- The management of a slab in new memory (`kmem_cache_slabmgmt`, the index and
`kmem_cache_init_objs`). -/
def initSlab (s : ℕ) (dma : Bool) : KmemCache :=
  { c with
    slab := update c.slab s
      { c.slab s with
        sInuse := 0, sDma := dma, sIndex := c.cBufctl, sFreep := (c.objOrder s).head? }
    buf := chainBufs (c.objOrder s) c.buf
    owned := update c.owned s true }

/-- The last section of `kmem_cache_grow`: the slab is made active. -/
def growEnd (s : ℕ) (dma : Bool) : KmemCache :=
  let c := c.initSlab s dma
  let c := { c with
    slab := update c.slab s { c.slab s with sMagic := slabMagicAlloc } }
  let c := c.kmemSlabLinkEnd s
  { c with
    cFreep := if c.cFreep.isNone then some s else c.cFreep
    cGrowing := c.cGrowing - 1 }

/-! ### Release -/

/-- The slab has become free: it belongs behind those in use. -/
def kmemCacheFullFree (s : ℕ) : KmemCache :=
  let nextp := c.links.next (some s)
  if c.inuse nextp ≠ 0 then
    let c := if c.cFreep = some s then { c with cFreep := nextp } else c
    (c.kmemSlabUnlink s).kmemSlabLinkEnd s
  else c

/-- The slab was full: it belongs behind those that are. -/
def kmemCacheOneFree (s : ℕ) : KmemCache :=
  let c' := if c.inuse (c.links.next (some s)) = c.cNum then
    (c.kmemSlabUnlink s).kmemSlabLinkFree s else c
  { c' with cFreep := some s }

def putObj (s : ℕ) (bufp : Obj) : KmemCache :=
  { c with
    slab := update c.slab s
      { c.slab s with sInuse := (c.slab s).sInuse - 1, sFreep := some bufp }
    buf := update c.buf bufp (.nextp (c.slab s).sFreep)
    live := update c.live bufp false }

inductive FreeResult where
  | freed
  /-- `free with no active objs` -/
  | noActive
  /-- `Either bad obj addr or double free` -/
  | doubleFree
  /-- `free from inactive slab` -/
  | inactive
  /-- `Bad obj addr` -/
  | badAddr
  deriving DecidableEq, Repr

/-- `__kmem_cache_free` from `check_magic` on. -/
def freeChecked (s : ℕ) (bufp : Obj) : KmemCache × FreeResult :=
  if (c.slab s).sMagic ≠ slabMagicAlloc then
    (c, if (c.slab s).sMagic = slabMagicDestroyed then .inactive else .badAddr)
  else if (c.slab s).sInuse = 0 then (c, .noActive)
  else
    let c' := c.putObj s bufp
    (if (c.slab s).sFreep.isSome then
      if (c'.slab s).sInuse ≠ 0 then c' else c'.kmemCacheFullFree s
    else c'.kmemCacheOneFree s, .freed)

/-- `__kmem_cache_free`: the slab of the object is that of its page, or stands in its bufctl. -/
def kmemCacheFree (objp : Obj) : KmemCache × FreeResult :=
  if c.cBufctl then
    if c.buf objp = .objp objp then c.freeChecked objp.1 objp else (c, .doubleFree)
  else
    match c.buf objp with
    | .slabp s => c.freeChecked s objp
    | _ => (c, .badAddr)

/-! ### Taking slabs back -/

/-- Take a slab out of the ring, to be destroyed without the lock. -/
def takeOut (s : ℕ) : KmemCache :=
  { c.kmemSlabUnlink s with dying := update c.dying s true }

/-- One turn of the loop of `kmem_cache_reap`, and the slab it takes out. -/
def kmemCacheReap (dma : Bool) (fuel : ℕ) : Option (KmemCache × Option ℕ) :=
  let lastp := c.links.prev none
  if c.cGrowing ≠ 0 ∨ c.inuse lastp ≠ 0 ∨ lastp = none then some (c, none)
  else
    let found := if dma then
      seek (fun s => c.links.prev (some s)) (fun s => (c.slab s).sDma)
        (fun s => (c.slab s).sInuse ≠ 0) fuel lastp
      else some lastp
    found.map fun slabp =>
      match slabp with
      | none => (c, none)
      | some s =>
        let c := if some s = c.cFreep then { c with cFreep := c.links.next (some s) } else c
        (c.takeOut s, some s)

/-- One turn of the loop of `kmem_cache_shrink`, and the slab it takes out. -/
def kmemCacheShrink : KmemCache × Option ℕ :=
  if c.cGrowing ≠ 0 then (c, none)
  else
    match c.links.prev none with
    | none => (c, none)
    | some s => if (c.slab s).sInuse ≠ 0 then (c, none) else (c.takeOut s, some s)

/-- The slab is marked and its memory given back. -/
def kmemSlabDestroy (s : ℕ) : KmemCache :=
  { c with
    slab := update c.slab s { c.slab s with sMagic := slabMagicDestroyed }
    owned := update c.owned s false
    dying := update c.dying s false }

end KmemCache

open KmemCache (chainBufs objOrder)

/-! ### Runs -/

/-- The sections.  A new slab lies in memory that is not the cache's, and callers free objects they
hold; how long a search may take is part of the label. -/
inductive Section where
  | alloc (dma : Bool) (fuel : ℕ)
  | growBegin
  | growEnd (s : ℕ) (dma : Bool)
  | growFail
  | free (objp : Obj)
  | reap (dma : Bool) (fuel : ℕ)
  | shrink
  | destroy (s : ℕ)
  deriving DecidableEq, Repr

def step (c : KmemCache) : Section → Option KmemCache
  | .alloc dma fuel => (c.kmemCacheAlloc dma fuel).map Prod.fst
  | .growBegin => some c.growBegin
  | .growEnd s dma => if c.cGrowing = 0 ∨ c.owned s = true then none else some (c.growEnd s dma)
  | .growFail => if c.cGrowing = 0 then none else some c.growFail
  | .free objp => if c.live objp then some (c.kmemCacheFree objp).1 else none
  | .reap dma fuel => (c.kmemCacheReap dma fuel).map Prod.fst
  | .shrink => some c.kmemCacheShrink.1
  | .destroy s => if c.dying s then some (c.kmemSlabDestroy s) else none

/-- A cache as `kmem_cache_create` leaves it: at least one object fits in a slab, and there is none. -/
structure Created (c : KmemCache) : Prop where
  num : 0 < c.cNum
  freep : c.cFreep = none
  firstp : c.links.next none = none
  lastp : c.links.prev none = none
  live : ∀ o, c.live o = false
  dying : ∀ s, c.dying s = false

/-! ### What the sections rely on -/

/-- A slab and the list of its free objects. -/
structure SlabOk (c : KmemCache) (s : ℕ) (free : List Obj) : Prop where
  magic : (c.slab s).sMagic = slabMagicAlloc
  index : (c.slab s).sIndex = c.cBufctl
  linked : Linked c.bufNextp (c.slab s).sFreep free
  within : ∀ o ∈ free, o.1 = s ∧ o.2 < c.cNum
  count : (c.slab s).sInuse + free.length = c.cNum
  live : ∀ k, c.live (s, k) = true ↔ k < c.cNum ∧ (s, k) ∉ free
  held : ∀ k, c.live (s, k) = true → c.buf (s, k) = if c.cBufctl then .objp (s, k) else .slabp s

/-- The slabs of the ring with their free objects; no other slab has a live object, and those to be
destroyed are not among them. -/
structure Stocked (c : KmemCache) (l : List ℕ) (free : ℕ → List Obj) : Prop where
  num : 0 < c.cNum
  slabs : ∀ s ∈ l, SlabOk c s (free s)
  owned : ∀ s ∈ l, c.owned s = true
  dying : ∀ s, c.dying s = true → c.owned s = true ∧ s ∉ l
  dead : ∀ s, s ∉ l → ∀ k, c.live (s, k) = false

/-- **A sane cache.**  The full slabs precede those with a free object, and `c_freep` is the first of
these. -/
structure Arranged (c : KmemCache) (full rest : List ℕ) (free : ℕ → List Obj) : Prop where
  ring : Ring c.links (full ++ rest)
  stocked : Stocked c (full ++ rest) free
  isFull : ∀ s ∈ full, free s = []
  hasFree : ∀ s ∈ rest, free s ≠ []
  freep : c.cFreep = rest.head?

def Sane (c : KmemCache) : Prop := ∃ full rest free, Arranged c full rest free

/-! ### One slab -/

variable {c c' : KmemCache} {s t k : ℕ} {o : Obj} {f : List Obj} {l l' l₁ l₂ full rest : List ℕ}
  {free : ℕ → List Obj}

theorem bufNextp_of_nextp {bufp : Option Obj} (h : c.buf o = .nextp bufp) : c.bufNextp o = bufp := by
  unfold KmemCache.bufNextp
  rw [h]

theorem bufNextp_congr (h : c'.buf o = c.buf o) : c'.bufNextp o = c.bufNextp o := by
  unfold KmemCache.bufNextp
  rw [h]

theorem SlabOk.congr (h : SlabOk c s f) (hnum : c'.cNum = c.cNum) (hbufctl : c'.cBufctl = c.cBufctl)
    (hslab : c'.slab s = c.slab s) (hbuf : ∀ k, c'.buf (s, k) = c.buf (s, k))
    (hlive : ∀ k, c'.live (s, k) = c.live (s, k)) : SlabOk c' s f where
  magic := by rw [hslab, h.magic]
  index := by rw [hslab, hbufctl, h.index]
  linked := by
    rw [hslab]
    refine h.linked.congr fun o ho => ?_
    obtain ⟨t, k⟩ := o
    obtain rfl : t = s := (h.within _ ho).1
    exact bufNextp_congr (hbuf k)
  within := by
    rw [hnum]
    exact h.within
  count := by rw [hslab, hnum, h.count]
  live k := by rw [hlive, hnum, h.live]
  held k hk := by
    rw [hlive] at hk
    rw [hbuf, hbufctl, h.held k hk]

theorem length_le_of_within {n : ℕ} (hnd : f.Nodup) (hw : ∀ o ∈ f, o.1 = s ∧ o.2 < n) : f.length ≤ n := by
  have hmap : (f.map Prod.snd).Nodup := by
    refine hnd.map_on fun a ha b hb hab => ?_
    exact Prod.ext ((hw a ha).1.trans (hw b hb).1.symm) hab
  have hsub : f.map Prod.snd ⊆ List.range n := by
    intro k hk
    obtain ⟨o, ho, rfl⟩ := mem_map.mp hk
    exact mem_range.mpr (hw o ho).2
  have hlen := (subperm_of_subset hmap hsub).length_le
  rwa [length_map, length_range] at hlen

theorem SlabOk.inuse_pos (h : SlabOk c s f) (hlive : c.live (s, k) = true) : 0 < (c.slab s).sInuse := by
  obtain ⟨hk, hmem⟩ := (h.live k).mp hlive
  have hlen : ((s, k) :: f).length ≤ c.cNum := by
    apply length_le_of_within (nodup_cons.mpr ⟨hmem, h.linked.nodup⟩) (s := s)
    intro o ho
    obtain rfl | ho := mem_cons.mp ho
    · exact ⟨rfl, hk⟩
    · exact h.within o ho
  have := h.count
  rw [length_cons] at hlen
  omega

theorem SlabOk.of_not_inuse (h : SlabOk c s f) (hnum : 0 < c.cNum) (hin : (c.slab s).sInuse = 0) :
    f ≠ [] ∧ ∀ k, c.live (s, k) = false := by
  constructor
  · rintro rfl
    have := h.count
    rw [hin, length_nil] at this
    omega
  · intro k
    rw [Bool.eq_false_iff]
    intro hlive
    exact absurd hin (h.inuse_pos hlive).ne'

theorem SlabOk.takeObj (h : SlabOk c s (o :: f)) : ∃ c', c.takeObj s = some (c', o) ∧
    c'.links = c.links ∧ c'.cFreep = (if f = [] then c.links.next (some s) else c.cFreep) ∧
    c'.cNum = c.cNum ∧ c'.cBufctl = c.cBufctl ∧ c'.owned = c.owned ∧ c'.dying = c.dying ∧
    (∀ t ≠ s, c'.slab t = c.slab t) ∧ (∀ p ≠ o, c'.buf p = c.buf p) ∧
    (∀ p ≠ o, c'.live p = c.live p) ∧ SlabOk c' s f := by
  obtain ⟨hfreep, hrest⟩ := h.linked
  have hnext := hrest.head?
  have hnd : o ∉ f := (nodup_cons.mp h.linked.nodup).1
  obtain ⟨ho, hlt⟩ := h.within o mem_cons_self
  unfold KmemCache.takeObj
  rw [hfreep]
  refine ⟨_, rfl, rfl, ?_, rfl, rfl, rfl, rfl, fun t ht => update_of_ne ht _ _,
    fun p hp => update_of_ne hp _ _, fun p hp => update_of_ne hp _ _, ?_⟩
  · rw [hnext]
    cases f <;> rfl
  · refine ⟨?_, ?_, ?_, fun p hp => h.within p (mem_cons_of_mem o hp), ?_, fun k => ?_, fun k => ?_⟩
    · dsimp only
      rw [update_self, h.magic]
    · dsimp only
      rw [update_self, h.index]
    · dsimp only
      rw [update_self]
      refine hrest.congr fun p hp => bufNextp_congr (update_of_ne ?_ _ _)
      rintro rfl
      exact hnd hp
    · have hcount := h.count
      rw [length_cons] at hcount
      dsimp only
      rw [update_self]
      dsimp only
      omega
    · dsimp only
      by_cases hk : (s, k) = o
      · rw [hk, update_self]
        subst hk
        simp [hlt, hnd]
      · rw [update_of_ne hk, h.live, mem_cons, not_or]
        simp [hk]
    · dsimp only
      by_cases hk : (s, k) = o
      · rw [hk, update_self, update_self, h.index]
        exact fun _ => rfl
      · rw [update_of_ne hk, update_of_ne hk]
        exact h.held k

theorem SlabOk.putObj (h : SlabOk c s f) (hlive : c.live (s, k) = true) :
    SlabOk (c.putObj s (s, k)) s ((s, k) :: f) := by
  obtain ⟨hk, hmem⟩ := (h.live k).mp hlive
  have hpos := h.inuse_pos hlive
  unfold KmemCache.putObj
  refine ⟨?_, ?_, ?_, fun p hp => ?_, ?_, fun j => ?_, fun j => ?_⟩
  · dsimp only
    rw [update_self, h.magic]
  · dsimp only
    rw [update_self, h.index]
  · dsimp only
    rw [update_self]
    refine ⟨rfl, ?_⟩
    rw [bufNextp_of_nextp (update_self _ _ _)]
    refine h.linked.congr fun p hp => bufNextp_congr (update_of_ne ?_ _ _)
    rintro rfl
    exact hmem hp
  · obtain rfl | hp := mem_cons.mp hp
    · exact ⟨rfl, hk⟩
    · exact h.within p hp
  · have hcount := h.count
    dsimp only
    rw [update_self, length_cons]
    dsimp only
    omega
  · dsimp only
    by_cases hj : (s, j) = (s, k)
    · rw [hj, update_self]
      simp
    · rw [update_of_ne hj, h.live, mem_cons, not_or]
      simp [hj]
  · dsimp only
    by_cases hj : (s, j) = (s, k)
    · rw [hj, update_self]
      simp
    · rw [update_of_ne hj, update_of_ne hj]
      exact h.held j

/-! ### A new slab -/

theorem chainBufs_of_notMem {buf : Obj → Bufctl} : ∀ {f : List Obj}, o ∉ f →
    chainBufs f buf o = buf o
  | [], _ => rfl
  | p :: f, h => by
    rw [mem_cons, not_or] at h
    unfold chainBufs
    rw [update_of_ne h.1]
    exact chainBufs_of_notMem h.2

theorem linked_of_chainBufs {buf : Obj → Bufctl} : ∀ {f : List Obj}, f.Nodup →
    (∀ o ∈ f, c.buf o = chainBufs f buf o) → Linked c.bufNextp f.head? f
  | [], _, _ => rfl
  | o :: f, hnd, h => by
    rw [nodup_cons] at hnd
    refine ⟨rfl, ?_⟩
    have hnext : c.bufNextp o = f.head? := by
      apply bufNextp_of_nextp
      rw [h o mem_cons_self]
      exact update_self _ _ _
    rw [hnext]
    have hrest : ∀ p ∈ f, c.buf p = chainBufs f buf p := by
      intro p hp
      rw [h p (mem_cons_of_mem o hp)]
      refine update_of_ne ?_ _ _
      rintro rfl
      exact hnd.1 hp
    exact linked_of_chainBufs hnd.2 hrest

theorem mem_objOrder : o ∈ c.objOrder s ↔ o.1 = s ∧ o.2 < c.cNum := by
  obtain ⟨t, k⟩ := o
  unfold objOrder
  split_ifs <;> simp [eq_comm, and_comm]

theorem length_objOrder : (c.objOrder s).length = c.cNum := by
  unfold objOrder
  split_ifs <;> simp

theorem nodup_objOrder : (c.objOrder s).Nodup := by
  unfold objOrder
  have hinj : Function.Injective fun k : ℕ => (s, k) := fun _ _ h => (Prod.mk.inj h).2
  split_ifs
  · exact (nodup_reverse.mpr nodup_range).map hinj
  · exact nodup_range.map hinj

theorem slabOk_growEnd (hdead : ∀ k, c.live (s, k) = false) (dma : Bool) :
    SlabOk (c.growEnd s dma) s (c.objOrder s) := by
  unfold KmemCache.growEnd KmemCache.initSlab KmemCache.kmemSlabLinkEnd
  refine ⟨?_, ?_, ?_, fun o ho => mem_objOrder.mp ho, ?_, fun k => ?_, fun k hk => ?_⟩
  · dsimp only
    rw [update_self]
  · dsimp only
    rw [update_self, update_self]
  · dsimp only
    rw [update_self, update_self]
    exact linked_of_chainBufs nodup_objOrder fun o _ => rfl
  · dsimp only
    rw [update_self, update_self, length_objOrder]
    exact Nat.zero_add _
  · rw [hdead, mem_objOrder]
    simp
  · rw [hdead] at hk
    cases hk

/-! ### All slabs -/

section

variable (h : Stocked c l free)
include h

theorem Stocked.reset (links : DLinks ℕ) (freep : Option ℕ) (growing : ℕ) :
    Stocked { c with links := links, cFreep := freep, cGrowing := growing } l free :=
  { h with slabs := fun s hs => (h.slabs s hs).congr rfl rfl rfl (fun _ => rfl) (fun _ => rfl) }

theorem Stocked.perm (hl : l.Perm l') : Stocked c l' free :=
  ⟨h.num, fun s hs => h.slabs s (hl.mem_iff.mpr hs), fun s hs => h.owned s (hl.mem_iff.mpr hs),
    fun s hs => ⟨(h.dying s hs).1, fun hmem => (h.dying s hs).2 (hl.mem_iff.mpr hmem)⟩,
    fun s hs => h.dead s fun hmem => hs (hl.mem_iff.mp hmem)⟩

theorem Stocked.change (hs : s ∈ l) (hnum : c'.cNum = c.cNum)
    (hbufctl : c'.cBufctl = c.cBufctl) (howned : c'.owned = c.owned) (hdying : c'.dying = c.dying)
    (hslab : ∀ t ≠ s, c'.slab t = c.slab t) (hbuf : ∀ o : Obj, o.1 ≠ s → c'.buf o = c.buf o)
    (hlive : ∀ o : Obj, o.1 ≠ s → c'.live o = c.live o) (hok : SlabOk c' s f) :
    Stocked c' l (update free s f) := by
  refine ⟨hnum ▸ h.num, fun t ht => ?_, fun t ht => ?_, fun t ht => ?_, fun t ht k => ?_⟩
  · obtain rfl | hts := eq_or_ne t s
    · rwa [update_self]
    · rw [update_of_ne hts]
      exact (h.slabs t ht).congr hnum hbufctl (hslab t hts) (fun k => hbuf (t, k) hts)
        fun k => hlive (t, k) hts
  · rw [howned]
    exact h.owned t ht
  · rw [howned]
    exact h.dying t (hdying ▸ ht)
  · have hts : t ≠ s := by
      rintro rfl
      exact ht hs
    rw [hlive (t, k) hts]
    exact h.dead t ht k

theorem Stocked.takeObj (hs : s ∈ l) (hfree : free s = o :: f) :
    ∃ c', c.takeObj s = some (c', o) ∧ c'.links = c.links ∧
      c'.cFreep = (if f = [] then c.links.next (some s) else c.cFreep) ∧
      Stocked c' l (update free s f) := by
  have hok := hfree ▸ h.slabs s hs
  obtain ⟨c', htake, hlinks, hfreep, hnum, hbufctl, howned, hdying, hslab, hbuf, hlive, hok'⟩ := hok.takeObj
  have hne : ∀ p : Obj, p.1 ≠ s → p ≠ o := by
    rintro p hp rfl
    exact hp (hok.within p mem_cons_self).1
  exact ⟨c', htake, hlinks, hfreep, h.change hs hnum hbufctl howned hdying hslab
    (fun p hp => hbuf p (hne p hp)) (fun p hp => hlive p (hne p hp)) hok'⟩

theorem Stocked.putObj (hs : s ∈ l) (hlive : c.live (s, k) = true) :
    Stocked (c.putObj s (s, k)) l (update free s ((s, k) :: free s)) := by
  have hne : ∀ p : Obj, p.1 ≠ s → p ≠ (s, k) := by
    rintro p hp rfl
    exact hp rfl
  exact h.change hs rfl rfl rfl rfl (fun t ht => update_of_ne ht _ _)
    (fun p hp => update_of_ne (hne p hp) _ _)
    (fun p hp => update_of_ne (hne p hp) _ _) ((h.slabs s hs).putObj hlive)

theorem Stocked.growEnd (hs : c.owned s = false) (dma : Bool) :
    Stocked (c.growEnd s dma) (l ++ [s]) (update free s (c.objOrder s)) := by
  have hmem : s ∉ l := by
    intro hmem
    rw [h.owned s hmem] at hs
    cases hs
  have hne : ∀ t ∈ l, t ≠ s := by
    rintro t ht rfl
    exact hmem ht
  refine ⟨h.num, fun t ht => ?_, fun t ht => ?_, fun t ht => ?_, fun t ht k => ?_⟩
  · obtain ht | ht := mem_append.mp ht
    · rw [update_of_ne (hne t ht)]
      refine (h.slabs t ht).congr rfl rfl ?_ (fun k => ?_) (fun k => rfl)
      · unfold KmemCache.growEnd KmemCache.initSlab KmemCache.kmemSlabLinkEnd
        dsimp only
        rw [update_of_ne (hne t ht), update_of_ne (hne t ht)]
      · refine chainBufs_of_notMem fun hmem => hne t ht ?_
        exact (mem_objOrder.mp hmem).1
    · obtain rfl := mem_singleton.mp ht
      rw [update_self]
      exact slabOk_growEnd (h.dead t hmem) dma
  · change update c.owned s true t = true
    obtain ht | ht := mem_append.mp ht
    · rw [update_of_ne (hne t ht)]
      exact h.owned t ht
    · obtain rfl := mem_singleton.mp ht
      exact update_self _ _ _
  · have hts : t ≠ s := by
      rintro rfl
      rw [(h.dying t ht).1] at hs
      cases hs
    refine ⟨?_, ?_⟩
    · change update c.owned s true t = true
      rw [update_of_ne hts]
      exact (h.dying t ht).1
    · rw [mem_append, mem_singleton, not_or]
      exact ⟨(h.dying t ht).2, hts⟩
  · rw [mem_append, not_or] at ht
    exact h.dead t ht.1 k

end

theorem Stocked.takeOut (h : Stocked c (l₁ ++ s :: l₂) free) (hnd : (l₁ ++ s :: l₂).Nodup)
    (hin : (c.slab s).sInuse = 0) : Stocked (c.takeOut s) (l₁ ++ l₂) free := by
  have hmem : s ∈ l₁ ++ s :: l₂ := by simp
  have hout : s ∉ l₁ ++ l₂ := (nodup_cons.mp (nodup_middle.mp hnd)).1
  have hsub : ∀ t ∈ l₁ ++ l₂, t ∈ l₁ ++ s :: l₂ := by
    intro t ht
    exact (perm_middle.mem_iff).mpr (mem_cons_of_mem s ht)
  refine ⟨h.num, fun t ht => ?_, fun t ht => h.owned t (hsub t ht), fun t ht => ?_, fun t ht k => ?_⟩
  · exact (h.slabs t (hsub t ht)).congr rfl rfl rfl (fun _ => rfl) (fun _ => rfl)
  · obtain rfl | hts := eq_or_ne t s
    · exact ⟨h.owned t hmem, hout⟩
    · change update c.dying s true t = true at ht
      rw [update_of_ne hts] at ht
      exact ⟨(h.dying t ht).1, fun hl => (h.dying t ht).2 (hsub t hl)⟩
  · obtain rfl | hts := eq_or_ne t s
    · exact ((h.slabs t hmem).of_not_inuse h.num hin).2 k
    · refine h.dead t (fun hl => ?_) k
      obtain hl | hl := mem_cons.mp ((perm_middle.mem_iff).mp hl)
      · exact hts hl
      · exact ht hl

theorem Stocked.destroy (h : Stocked c l free) (hs : c.dying s = true) :
    Stocked (c.kmemSlabDestroy s) l free := by
  obtain ⟨-, hout⟩ := h.dying s hs
  have hne : ∀ t ∈ l, t ≠ s := by
    rintro t ht rfl
    exact hout ht
  refine ⟨h.num, fun t ht => ?_, fun t ht => ?_, fun t ht => ?_, h.dead⟩
  · exact (h.slabs t ht).congr rfl rfl (update_of_ne (hne t ht) _ _) (fun _ => rfl) (fun _ => rfl)
  · change update c.owned s false t = true
    rw [update_of_ne (hne t ht)]
    exact h.owned t ht
  · change update c.dying s false t = true at ht
    have hts : t ≠ s := by
      rintro rfl
      rw [update_self] at ht
      exact Bool.false_ne_true ht
    rw [update_of_ne hts] at ht
    refine ⟨?_, (h.dying t ht).2⟩
    change update c.owned s false t = true
    rw [update_of_ne hts]
    exact (h.dying t ht).1

end I370Linux.Slab
