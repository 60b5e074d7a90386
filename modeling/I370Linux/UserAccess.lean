import I370Linux.UserFlatExact

/-! # Single values in user memory

The model of `access_ok`, `put_user` and `get_user` of `asm-i370/uaccess.h`, over `put_user_data` and
`__copy_from_user` of `UserCopy`.

`access_ok` adds in 32 bits and accepts ranges that end behind the last address (`low_iff`).
`put_user_data` stores the pieces of a value that crosses a page with the low bytes first (`stored_iff`), and
`get_user` reads a `char` or a `short` into the high bytes of a `long` and returns the low ones
(`undoes_iff`). -/

namespace I370Linux.UserCopy

open PagedStore Vma PageTable

/-! ### `access_ok` -/

def low2gb (addr size : BitVec 32) : Bool := size &&& 0x80000000 = 0 ∧ (addr + size) &&& 0x80000000 = 0

/-- The calls that rely on `access_ok`, with the arguments it gets. -/
inductive Call where
  | copyFromUser (src n : BitVec 32)
  | copyToUser (dst n : BitVec 32)
  | clearUser (addr size : BitVec 32)
  | putUser (ptr size : BitVec 32)

def Call.range : Call → BitVec 32 × BitVec 32
  | .copyFromUser addr n | .copyToUser addr n | .clearUser addr n | .putUser addr n => (addr, n)

/-- A kernel with no page in storage, and one area that ends above every address. -/
def blank : Kernel (List ℕ) := ⟨fun _ => 0, fun _ => .invalid, [⟨0, 2 ^ 33, 0, VM_WRITE, none, 0, none, 0⟩], []⟩

/-- A `handle_mm_fault` that only notes the address. -/
def note : FaultHandler (List ℕ) := fun k _ addr _ => { k with rest := addr :: k.rest }

/-- The addresses for which the routine of a call takes faults when no page is in storage. -/
def Call.lookups : Call → List ℕ
  | .copyFromUser src n =>
    ((UserCopy.copyFromUser note false blank (fun _ => 0) src.toNat n.toNat).map (·.1.rest)).getD []
  | .copyToUser dst n => ((UserCopy.copyToUser note false blank dst.toNat (fun _ => 0) n.toNat).map (·.rest)).getD []
  | .clearUser addr size => (UserCopy.clearUser note false blank addr.toNat size.toNat).rest
  | .putUser ptr size => (putUserData note false blank 0 ptr.toNat size.toNat).rest

/-- The pages that a call looks up, if `access_ok` lets it. -/
def Call.touches (c : Call) : Set ℕ :=
  {x | low2gb c.range.1 c.range.2 = true ∧ ∃ y ∈ c.lookups, x / pageSize = y / pageSize}

/-- Only addresses of `[lo, hi)` have been noted, and under `b` the first of them. -/
def Notes (lo hi : ℕ) (b : Prop) (k : Kernel (List ℕ)) : Prop :=
  (k.pgd = blank.pgd ∧ k.areas = blank.areas) ∧ (∀ x ∈ k.rest, lo ≤ x ∧ x < hi) ∧ (b → lo ∈ k.rest)

section Notes

variable {lo hi stop : ℕ}

theorem Notes.mono {b c : Prop} {k : Kernel (List ℕ)} (h : Notes lo hi b k) (hc : c → b) : Notes lo hi c k :=
  ⟨h.1, h.2.1, h.2.2 ∘ hc⟩

end Notes

theorem and_high_eq_zero (x : BitVec 32) : x &&& 0x80000000 = 0 ↔ x.toNat < 2 ^ 31 := by
  have h : x.getLsbD 31 = decide (2 ^ 31 ≤ x.toNat) := BitVec.msb_eq_decide x
  rw [show (0x80000000 : BitVec 32) = BitVec.twoPow 32 31 from rfl, BitVec.and_twoPow, h]
  by_cases hx : 2 ^ 31 ≤ x.toNat
  · rw [decide_eq_true hx]
    exact iff_of_false (by decide) (not_lt.mpr hx)
  · rw [decide_eq_false hx]
    exact iff_of_true rfl (not_le.mp hx)

theorem low2gb_iff (addr size : BitVec 32) : low2gb addr size = true ↔
    size.toNat < 2 ^ 31 ∧ (addr.toNat + size.toNat) % 2 ^ 32 < 2 ^ 31 := by
  rw [low2gb, decide_eq_true_iff, and_high_eq_zero, and_high_eq_zero, BitVec.toNat_add]

variable {ε : Type*} {fault : FaultHandler ε} {k k' k₁ k₂ : Kernel ε} {va len n m : ℕ} {data : BitVec 32}
  {p p' : ℕ → ℕ}

/-- The page of `va` is in storage; the first bit of its entry is 0. -/
def Kernel.Mapped (k : Kernel ε) (va : ℕ) : Prop := k.Present va ∧ k.pte va &&& 0x80000000 = 0

/-- The real address of `va`. -/
def Kernel.real (k : Kernel ε) (va : ℕ) : ℕ := k.frame va + va % pageSize

/-- The byte of a value with the number `j`, from the low one on. -/
def byte (data : BitVec 32) (j : ℕ) : Byte := (data >>> (8 * j)).setWidth 8

theorem byte_sshiftRight {s q j : ℕ} (hs : s = 8 * q) (h : q + j < 4) :
    byte (data.sshiftRight s) j = byte data (q + j) := by
  subst hs
  ext i hi
  simp only [byte, BitVec.getElem_setWidth, BitVec.getLsbD_ushiftRight, BitVec.getLsbD_sshiftRight]
  rw [if_pos (by omega), decide_eq_false (by omega)]
  simp only [Bool.not_false, Bool.true_and]
  congr 1
  omega

/-- The bytes of `data` have been stored from `va` on, the one with the number `p i` at place `i`, and nothing
else. -/
structure Puts (k : Kernel ε) (va n : ℕ) (data : BitVec 32) (p : ℕ → ℕ) (k' : Kernel ε) : Prop where
  pgd : k'.pgd = k.pgd
  inside : ∀ i < n, k'.mem (k.real (va + i)) = byte data (p i)
  outside : ∀ x, (∀ i < n, x ≠ k.real (va + i)) → k'.mem x = k.mem x

theorem real_congr (h : k'.pgd = k.pgd) (y : ℕ) : k'.real y = k.real y := by
  rw [Kernel.real, Kernel.frame, Kernel.pte, h]
  rfl

theorem real_mod (k : Kernel ε) (y : ℕ) : k.real y % pageSize = y % pageSize :=
  mod_eq (k.frame_mod y) (mod_lt_pageSize y)

theorem Puts.congr (h : Puts k va n data p k') (hpq : ∀ i < n, p i = p' i) : Puts k va n data p' k' :=
  ⟨h.pgd, fun i hi => hpq i hi ▸ h.inside i hi, h.outside⟩

theorem Puts.append {s q : ℕ} (h : Puts k va n data p k₁) (h' : Puts k₁ (va + n) m (data.sshiftRight s) p' k₂)
    (hs : s = 8 * q) (hq : ∀ i < m, q + p' i < 4) (hle : n + m ≤ pageSize) :
    Puts k va (n + m) data (fun i => if i < n then p i else q + p' (i - n)) k₂ where
  pgd := h'.pgd.trans h.pgd
  inside i hi := by
    split_ifs with hn
    · rw [h'.outside, h.inside i hn]
      intro j hj he
      have hmod := congrArg (· % pageSize) he
      simp only [real_mod, pageSize] at hmod hle
      omega
    · have hin := h'.inside (i - n) (by omega)
      rwa [real_congr h.pgd, show va + n + (i - n) = va + i by omega, byte_sshiftRight hs (hq _ (by omega))] at hin
  outside x hx := by
    rw [h'.outside, h.outside x fun i hi => hx i (by omega)]
    intro i hi
    rw [real_congr h.pgd, add_assoc]
    exact hx _ (by omega)

theorem real_add {i : ℕ} (h : va % pageSize + i < pageSize) : k.real (va + i) = k.real va + i := by
  have hpage : (va + i) / pageSize = va / pageSize := by simp only [pageSize] at *; omega
  rw [Kernel.real, Kernel.frame_congr (k.pte_congr hpage), Kernel.real]
  simp only [pageSize] at *
  omega

theorem puts_storeInt {x : ℕ} (data : BitVec 32) (h : va % pageSize + n ≤ pageSize) (hx : x = k.real va) :
    Puts k va n data (n - 1 - ·) (storeInt k x data n) := by
  subst hx
  refine ⟨rfl, fun i hi => ?_, fun x hx => blit_outside ?_⟩
  · rw [real_add (by omega), storeInt]
    dsimp only
    rw [blit_inside (by omega) (by omega), zero_add, Nat.add_sub_cancel_left]
    rfl
  · by_contra hc
    exact hx (x - k.real va) (by omega) (by rw [real_add (by omega)]; omega)

theorem translate_of_present (h : k.Present va) (stop : ℕ) : translate fault k va stop = (k, k.pte va) := by
  have hr : reach fault k va stop = k := reach_of_not_empty h.not_empty
  rw [translate_eq (hr.symm ▸ h.not_empty), hr]

theorem Kernel.Mapped.real_eq (h : k.Mapped va) :
    (k.pte va &&& PAGE_MASK).toNat ||| va % pageSize = k.real va := by
  rw [or_offset (pageMask_mod _) (mod_lt_pageSize va), Kernel.real, Kernel.frame, ptePage,
    show PAGE_MASK = PFRA_MASK ||| 0x80000000 by decide, BitVec.and_or_distrib_left, h.2]
  simp

/-- The number of the byte that is stored at place `i`; the last four lines are for a value that crosses a page. -/
def place (off len i : ℕ) : ℕ :=
  if off + len ≤ pageSize then len - 1 - i
  else if len = 2 then i
  else if off = 0xffd then if i < 2 then 1 - i else i
  else if off = 0xffe then if i < 2 then 1 - i else 5 - i
  else if i = 1 ∨ i = 2 then 3 - i else i

theorem puts_page (h0 : k.Mapped va) (hlen : len = 1 ∨ len = 2 ∨ len = 4) (h : va % pageSize + len ≤ pageSize) :
    Puts k va len data (len - 1 - ·) (putUserLoop fault (n + 1) k data va len) := by
  have hput := puts_storeInt data h (rfl : k.real va = k.real va)
  rw [putUserLoop, translate_of_present h0.1]
  dsimp only
  rw [h0.real_eq]
  simp only [pageSize] at h ⊢
  obtain rfl | rfl | rfl := hlen
  · exact hput
  · rwa [if_neg (by decide), if_pos rfl, if_pos (by omega)]
  · rwa [if_neg (by decide), if_neg (by decide), if_pos rfl, if_pos (by omega)]

theorem puts_three (h0 : k.Mapped va) (h : va % pageSize = 0) :
    Puts k va 3 data (fun i => if i < 2 then 1 - i else 2) (putUserLoop fault (n + 1) k data va 3) := by
  rw [putUserLoop, translate_of_present h0.1]
  dsimp only
  rw [h0.real_eq, if_neg (by decide), if_neg (by decide), if_neg (by decide), if_pos rfl]
  have hfirst := puts_storeInt (n := 2) data (by rw [h]; decide) (rfl : k.real va = k.real va)
  refine (hfirst.append (q := 2) (puts_storeInt (n := 1) _ ?_ ?_) rfl (by decide) (by decide)).congr (by decide)
  · simp only [pageSize] at *
    omega
  · rw [real_congr hfirst.pgd]
    exact (real_add (by rw [h]; decide)).symm

theorem puts_split (hm : ∀ i < len, k.Mapped (va + i)) (hlen : len = 2 ∨ len = 4)
    (h : pageSize < va % pageSize + len) : Puts k va len data (place (va % pageSize) len)
      (putUserLoop fault 2 k data va len) := by
  have h0 : k.Mapped va := hm 0 (by omega)
  rw [putUserLoop, translate_of_present h0.1]
  dsimp only
  rw [h0.real_eq]
  have hmod := mod_lt_pageSize va
  have hnext (i : ℕ) (hi : va % 4096 + i = 4096) : (va + i) % pageSize = 0 := by
    simp only [pageSize]
    omega
  simp only [pageSize] at h hmod ⊢
  have hfirst (n : ℕ) (hn : va % 4096 + n ≤ 4096) := puts_storeInt (k := k) data hn rfl
  obtain rfl | rfl := hlen
  · rw [if_neg (by decide), if_pos rfl, if_neg (by omega)]
    have hrest := hnext 1 (by omega)
    rw [show va % 4096 = 0xfff by omega]
    exact ((hfirst 1 (by omega)).append (q := 1) (puts_page (n := 0) (hm 1 (by decide)) (.inl rfl)
      (by rw [hrest]; decide)) rfl (by decide) (by decide)).congr (by decide)
  rw [if_neg (by decide), if_neg (by decide), if_pos rfl, if_neg (by omega)]
  split_ifs with hd he
  · have hrest := hnext 3 (by omega)
    have htwo := (hfirst 2 (by omega)).append (q := 2) (puts_storeInt (n := 1) _ (by simp only [pageSize]; omega)
      (real_add (by simp only [pageSize]; omega)).symm) rfl (by decide) (by decide)
    rw [hd]
    exact (htwo.append (q := 3) (puts_page (n := 0) (hm 3 (by decide)) (.inl rfl) (by rw [hrest]; decide))
      rfl (by decide) (by decide)).congr (by decide)
  · have hrest := hnext 2 (by omega)
    rw [he]
    exact ((hfirst 2 (by omega)).append (q := 2) (puts_page (n := 0) (hm 2 (by decide)) (.inr (.inl rfl))
      (by rw [hrest]; decide)) rfl (by decide) (by decide)).congr (by decide)
  · rw [show va % 4096 = 0xfff by omega]
    exact ((hfirst 1 (by omega)).append (q := 1) (puts_three (n := 0) (hm 1 (by decide)) (hnext 1 (by omega)))
      rfl (by decide) (by decide)).congr (by decide)

/-- The bytes that a page boundary exchanges are the same. -/
abbrev Symmetric (data : BitVec 32) (off len : ℕ) : Prop := ∀ i < len, byte data (place off len i) = bigEndian data len i

section

variable (hlen : len = 1 ∨ len = 2 ∨ len = 4) (hm : ∀ i < len, k.Mapped (va + i))
include hlen hm

theorem puts_putUserData (fault : FaultHandler ε) (data : BitVec 32) :
    Puts k va len data (place (va % pageSize) len) (putUserData fault false k data va len) := by
  by_cases hfit : va % pageSize + len ≤ pageSize
  · exact (puts_page (hm 0 (by omega)) hlen hfit).congr fun i _ => (if_pos hfit).symm
  · have hmod := mod_lt_pageSize va
    exact puts_split hm (by omega) (not_le.mp hfit)

/-- **`put_user_data`** stores a value in big-endian order exactly if it does not cross a page or the bytes that are
exchanged then are the same; it changes no other byte. -/
theorem stored_iff (fault : FaultHandler ε) (data : BitVec 32) :
    ((∀ i < len, (putUserData fault false k data va len).mem (k.real (va + i)) = bigEndian data len i) ↔
      Symmetric data (va % pageSize) len) ∧
    ∀ x, (∀ i < len, x ≠ k.real (va + i)) → (putUserData fault false k data va len).mem x = k.mem x := by
  have hputs := puts_putUserData hlen hm fault data
  exact ⟨forall₂_congr fun i hi => by rw [hputs.inside i hi], hputs.outside⟩

end

/-- The first megabyte of an address space, mapped to the frames from 0 on. -/
def flat : Kernel Unit := ⟨fun _ => 0, fun _ => .table fun i => BitVec.ofNat 32 (4096 * i) ||| PAGE_USER, [], ()⟩

theorem stored_iff_page :
    (putUserData (fun k _ _ _ => k) false flat 0x01020304 0x2000 4).mem (flat.real 0x2001) = 2 :=
  ((stored_iff (.inr (.inr rfl)) (fun i hi => by interval_cases i <;> exact ⟨rfl, rfl⟩) _ _).1.mpr
    (by decide)) 1 (by decide)

/-- The bytes of a `short` at the end of a page are exchanged. -/
theorem stores_low_first : (putUserData (fun k _ _ _ => k) false flat 0x0102 0x2fff 2).mem 0x2fff = 2 ∧
    (putUserData (fun k _ _ _ => k) false flat 0x0102 0x2fff 2).mem 0x3000 = 1 ∧ flat.Mapped 0x2fff ∧
      flat.Mapped 0x3000 :=
  ⟨rfl, rfl, ⟨rfl, rfl⟩, rfl, rfl⟩

/-! ### `get_user` -/

theorem byte_loadWord (mem : ℕ → Byte) (j : ℕ) (h : j < 4) : byte (loadWord mem 0) j = mem (3 - j) := by
  interval_cases j <;> ext i hi <;> simp [byte, loadWord] <;> grind

theorem setWidth_eq_of_bytes {x y : BitVec 32} (h : ∀ j < n, byte x j = byte y j) :
    x.setWidth (8 * n) = y.setWidth (8 * n) := by
  ext i hi
  have hb := congrArg (fun b : Byte => b.getLsbD (i % 8)) (h (i / 8) (by omega))
  simpa [byte, Nat.div_add_mod, Nat.mod_lt] using hb

/-- `put_user`, with `__put_user` where `check` is false. -/
def putUser (fault : FaultHandler ε) (check : Bool) (k : Kernel ε) (data ptr : BitVec 32) (size : ℕ) : ℤ × Kernel ε :=
  if check ∧ ¬ low2gb ptr (BitVec.ofNat 32 size) then (-14, k)
  else (0, putUserData fault false k data ptr.toNat size)

/-- `get_user`, with `__get_user` where `check` is false: then `__gu_val` starts with what its place holds. -/
def getUser (fault : FaultHandler ε) (check : Bool) (k : Kernel ε) (ptr : BitVec 32) (size : ℕ) (junk : BitVec 32) :
    Option (ℤ × BitVec (8 * size)) :=
  let val := if check then 0 else junk
  if check ∧ ¬ low2gb ptr (BitVec.ofNat 32 size) then some (-14, val.setWidth _)
  else (copyFromUser fault false k (bigEndian val 4) ptr.toNat size).map fun r => (0, (loadWord r.2 0).setWidth _)

/-- A value of `size` bytes as a `long`. -/
def widen (signed : Bool) {size : ℕ} (v : BitVec (8 * size)) : BitVec 32 :=
  if signed then v.signExtend 32 else v.setWidth 32

/-- Both calls return 0, and the second one gives the value of the first one. -/
def Undoes (fault : FaultHandler ε) (check signed : Bool) (k : Kernel ε) (ptr : BitVec 32) {size : ℕ}
    (v : BitVec (8 * size)) (junk : BitVec 32) : Prop :=
  ∃ k', putUser fault check k (widen signed v) ptr size = (0, k') ∧
    getUser fault check k' ptr size junk = some (0, v)

theorem getUser_eq (hsize : len = 1 ∨ len = 2 ∨ len = 4) {ptr junk : BitVec 32} (check : Bool)
    (hne : ∀ y, ptr.toNat ≤ y → y < ptr.toNat + len → ¬ k.Empty y) (hptr : pageSize ≤ ptr.toNat)
    (hok : ¬ (check = true ∧ ¬ low2gb ptr (BitVec.ofNat 32 len) = true)) : getUser fault check k ptr len junk =
      some (0, (if len = 4 then loadWord (fun i => k.mem (k.real (ptr.toNat + i))) 0
        else if check then 0 else junk).setWidth _) := by
  rw [getUser, if_neg hok, copyFromUser, if_neg (by decide), if_neg (not_lt.mpr hptr), Option.map_some]
  generalize (if check = true then 0 else junk) = val
  obtain ⟨-, hin, hout⟩ := loadLoop_spec fault (bigEndian val 4) hne
  refine congrArg (fun x => some (0, x)) (setWidth_eq_of_bytes fun j hj => ?_)
  rw [byte_loadWord _ j (by omega)]
  split_ifs with h4
  · rw [hin _ (by omega), byte_loadWord _ j (by omega)]
    rfl
  · -- the low bytes of the `long` are not written
    rw [hout _ (by omega)]
    exact congrArg (byte val) (by omega)

theorem loadWord_eq_iff {mem : ℕ → Byte} {x : BitVec 32} :
    loadWord mem 0 = x ↔ ∀ i < 4, mem i = bigEndian x 4 i := by
  refine ⟨fun h i hi => ?_, fun h => ?_⟩
  · rw [← h, ← show 3 - (3 - i) = i by omega, ← byte_loadWord mem _ (by omega)]
    exact congrArg (byte _) (by omega)
  · have hw := setWidth_eq_of_bytes (n := 4) (x := loadWord mem 0) (y := x) fun j hj => by
      rw [byte_loadWord mem j hj, h _ (by omega)]
      exact congrArg (byte x) (by omega)
    simpa using hw

/-- **`get_user` undoes `put_user`** exactly if the address is not in page 0, with the checks the value ends
below 2 GB, and a `long` is stored in order, a `char` or a `short` is what `__gu_val` held before. -/
theorem undoes_iff (hsize : len = 1 ∨ len = 2 ∨ len = 4) {ptr : BitVec 32} (hm : ∀ i < len, k.Mapped (ptr.toNat + i))
    (hfit : ptr.toNat + len ≤ 2 ^ 31) (fault : FaultHandler ε) (check signed : Bool) (v : BitVec (8 * len))
    (junk : BitVec 32) : Undoes fault check signed k ptr v junk ↔
      pageSize ≤ ptr.toNat ∧ (check = true → ptr.toNat + len < 2 ^ 31) ∧
        if len = 4 then Symmetric (widen signed v) (ptr.toNat % pageSize) 4
        else v = (if check then 0 else junk).setWidth _ := by
  have hlow : low2gb ptr (BitVec.ofNat 32 len) = true ↔ ptr.toNat + len < 2 ^ 31 := by
    rw [low2gb_iff, BitVec.toNat_ofNat]
    omega
  have hok : (check = true ∧ ¬ low2gb ptr (BitVec.ofNat 32 len) = true) ↔
      ¬ (check = true → ptr.toNat + len < 2 ^ 31) := by
    rw [hlow, Classical.not_imp]
  have hputs := puts_putUserData hsize hm fault (widen signed v)
  rw [Undoes, putUser]
  generalize putUserData fault false k (widen signed v) ptr.toNat len = k₁ at hputs
  by_cases hbad : check = true ∧ ¬ low2gb ptr (BitVec.ofNat 32 len) = true
  · rw [if_pos hbad]
    exact iff_of_false (fun ⟨_, h, _⟩ => by cases h) fun h => hok.mp hbad h.2.1
  have heq : (∃ k', ((0 : ℤ), k₁) = (0, k') ∧ getUser fault check k' ptr len junk = some (0, v)) ↔
      getUser fault check k₁ ptr len junk = some (0, v) :=
    ⟨fun ⟨_, h, hg⟩ => by cases h; exact hg, fun h => ⟨k₁, rfl, h⟩⟩
  rw [if_neg hbad, heq, and_iff_right (not_not.mp (mt hok.mpr hbad))]
  by_cases hptr : pageSize ≤ ptr.toNat
  swap
  · refine iff_of_false (fun hget => ?_) fun h => hptr h.1
    rw [getUser, if_neg hbad, copyFromUser, if_neg (by decide), if_pos (not_le.mp hptr)] at hget
    cases hget
  rw [getUser_eq hsize check (fun y h1 h2 => ?_) hptr hbad, Option.some_inj, Prod.mk.injEq, and_iff_right rfl,
    and_iff_right hptr]
  · by_cases h4 : len = 4
    · subst h4
      rw [if_pos rfl, if_pos rfl]
      have hw : widen signed v = v := by cases signed <;> simp [widen]
      rw [hw] at hputs ⊢
      rw [BitVec.setWidth_eq, loadWord_eq_iff]
      refine forall₂_congr fun i hi => ?_
      rw [real_congr hputs.pgd, hputs.inside i hi]
    · rw [if_neg h4, if_neg h4]
      exact eq_comm
  · obtain ⟨i, rfl⟩ := Nat.exists_eq_add_of_le h1
    rw [Kernel.Empty, Kernel.pte, hputs.pgd]
    exact (hm i (by omega)).1.not_empty

theorem undoes_iff_long : Undoes (fun k _ _ _ => k) true true flat 0x2000 (7 : BitVec (8 * 4)) 0 :=
  (undoes_iff (.inr (.inr rfl)) (fun i hi => by interval_cases i <;> exact ⟨rfl, rfl⟩) (by decide) _ true true _ 0).mpr
    ⟨by decide, by decide, by decide⟩

/-- A `char` is read back as 0. -/
theorem gets_zero : getUser (fun k _ _ _ => k) true (putUser (fun k _ _ _ => k) true flat 7 0x2000 1).2 0x2000 1 0 =
    some (0, 0) ∧ flat.Mapped 0x2000 := ⟨rfl, rfl, rfl⟩

end I370Linux.UserCopy
