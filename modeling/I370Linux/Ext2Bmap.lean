import Mathlib

/-! # The block map of a file

The model of the two functions of `fs/ext2/inode.c` that find the block of a file: `ext2_bmap` with `inode_bmap`
and `block_bmap`, and `ext2_getblk` with `inode_getblk` and `block_getblk`, called with `create` 0.  Both
divide the number of a block into places in up to three levels of indirect blocks, and `path` is that
division.  The walks keep account of the pointers they read.

`agrees_iff` says that they differ for one number only, the first one behind the largest file, which
`ext2_getblk` does not refuse. -/

namespace I370Linux.Ext2Bmap

/-- A number of a block of the disk, 0 for none. -/
abbrev Block := BitVec 32

/-- A file: `i_data`, and the words of the indirect blocks that can be read. Behind the end of a block lies what is in memory
there. -/
structure File where
  addrPerBlockBits : ℕ
  bits : 8 ≤ addrPerBlockBits ∧ addrPerBlockBits ≤ 10
  data : ℕ → Block
  disk : Block → Option (ℕ → Block)

inductive Slot where
  | inode (nr : ℕ)
  | block (bh : Block) (nr : ℕ)

/-- What a walk has come to, where that was read, and the places in indirect blocks that were used. -/
structure Walk (α : Type) where
  value : α
  slot : Option Slot
  used : List ℕ

namespace File

variable (f : File)

def addrPerBlock : ℕ := 2 ^ f.addrPerBlockBits

def big : ℕ :=
  12 + f.addrPerBlock + 1 <<< (f.addrPerBlockBits * 2) + (1 <<< (f.addrPerBlockBits * 2)) <<< f.addrPerBlockBits

/-- The walk through the levels, which both functions have, each with its own steps. -/
def levels {α : Type} (inode : ℕ → α) (step : α → ℕ → α) (block : ℕ) : α :=
  if block < 12 then inode block
  else
    let block := block - 12
    if block < f.addrPerBlock then step (inode 12) block
    else
      let block := block - f.addrPerBlock
      if block < 1 <<< (f.addrPerBlockBits * 2) then
        step (step (inode 13) (block >>> f.addrPerBlockBits)) (block &&& (f.addrPerBlock - 1))
      else
        let block := block - 1 <<< (f.addrPerBlockBits * 2)
        step (step (step (inode 14) (block >>> (f.addrPerBlockBits * 2)))
          (block >>> f.addrPerBlockBits &&& (f.addrPerBlock - 1))) (block &&& (f.addrPerBlock - 1))

def inodeBmap (nr : ℕ) : Walk Block := ⟨f.data nr, some (.inode nr), []⟩

/-- `block_bmap` of the block that the walk has come to, unless that is 0. -/
def blockBmap (w : Walk Block) (nr : ℕ) : Walk Block :=
  if w.value = 0 then { w with slot := none }
  else
    match f.disk w.value with
    | none => { w with value := 0, slot := none }
    | some words => ⟨words nr, some (.block w.value nr), nr :: w.used⟩

/-- `ext2_bmap`; `none` is 0 with a warning. -/
def ext2Bmap (block : ℤ) : Option (Walk Block) :=
  if block < 0 then none
  else if block ≥ f.big then none
  else some (f.levels f.inodeBmap f.blockBmap block.toNat)

inductive Errno where
  | enospc
  | efbig

/-- `inode_getblk` without `create`: the buffer of the block, or `NULL` and the error. -/
def inodeGetblk (nr : ℕ) : Walk (Except Errno Block) :=
  ⟨if f.data nr = 0 then .error .efbig else .ok (f.data nr), some (.inode nr), []⟩

/-- `block_getblk` without `create`.  If the buffer cannot be read, `err` is what `ext2_getblk` has set. -/
def blockGetblk (w : Walk (Except Errno Block)) (nr : ℕ) : Walk (Except Errno Block) :=
  match w.value with
  | .error _ => { w with slot := none }
  | .ok bh =>
    match f.disk bh with
    | none => { w with value := .error .enospc, slot := none }
    | some words =>
      ⟨if words nr = 0 then .error .efbig else .ok (words nr), some (.block bh nr), nr :: w.used⟩

/-- `ext2_getblk` without `create`; `none` is `NULL` with a warning and `-EIO`. -/
def ext2Getblk (block : ℤ) : Option (Walk (Except Errno Block)) :=
  if block < 0 then none
  else if block > f.big then none
  else some (f.levels f.inodeGetblk f.blockGetblk block.toNat)

/-! ### Paths -/

/-- The pointer of the inode and the places in the indirect blocks that lead to a block of the file. -/
def path (n : ℕ) : ℕ × List ℕ :=
  let a := f.addrPerBlock
  if n < 12 then (n, [])
  else if n - 12 < a then (12, [n - 12])
  else if n - 12 - a < a * a then (13, [(n - 12 - a) / a, (n - 12 - a) % a])
  else
    let m := n - 12 - a - a * a
    (14, [m / (a * a), m / a % a, m % a])

/-- The paths of the tree, to indirect blocks and to blocks of the file. -/
def IsPath (p : ℕ × List ℕ) : Prop :=
  p.1 < 15 ∧ p.2.length ≤ p.1 - 11 ∧ ∀ i ∈ p.2, i < f.addrPerBlock

def walk (p : ℕ × List ℕ) : Walk Block := p.2.foldl f.blockBmap (f.inodeBmap p.1)

def Distinct : Prop :=
  ∀ p q, f.IsPath p → f.IsPath q → (f.walk p).value ≠ 0 → (f.walk p).value = (f.walk q).value → p = q

variable {f}

theorem shift_eq : 1 <<< (f.addrPerBlockBits * 2) = f.addrPerBlock * f.addrPerBlock := by
  rw [Nat.one_shiftLeft, addrPerBlock, pow_mul, sq]

theorem levels_eq {α : Type} (inode : ℕ → α) (step : α → ℕ → α) (n : ℕ) :
    f.levels inode step n = (f.path n).2.foldl step (inode (f.path n).1) := by
  have hone (m : ℕ) : m >>> f.addrPerBlockBits = m / f.addrPerBlock := Nat.shiftRight_eq_div_pow ..
  have htwo (m : ℕ) : m >>> (f.addrPerBlockBits * 2) = m / (f.addrPerBlock * f.addrPerBlock) := by
    rw [Nat.shiftRight_eq_div_pow, addrPerBlock, pow_mul, sq]
  have hmod (m : ℕ) : m &&& (f.addrPerBlock - 1) = m % f.addrPerBlock := Nat.and_two_pow_sub_one_eq_mod ..
  unfold levels path
  simp only [shift_eq, hone, htwo, hmod]
  split_ifs <;> rfl

theorem isPath_path {n : ℕ} (h : n < f.big) : f.IsPath (f.path n) := by
  have hpos : 0 < f.addrPerBlock := Nat.two_pow_pos _
  rw [big, shift_eq, Nat.shiftLeft_eq, ← addrPerBlock] at h
  unfold path IsPath
  dsimp only
  generalize f.addrPerBlock = a at *
  split_ifs with h1 h2 h3
  · simp; omega
  · simpa using h2
  · simp [Nat.mod_lt _ hpos, Nat.div_lt_iff_lt_mul hpos, h3]
  · have hm : n - 12 - a - a * a < a * (a * a) := by rw [← mul_assoc]; omega
    simp [Nat.mod_lt _ hpos, Nat.div_lt_iff_lt_mul (Nat.mul_pos hpos hpos), hm]

def number (a : ℕ) : ℕ × List ℕ → ℕ
  | (_, [i]) => 12 + i
  | (_, [i, j]) => 12 + a + (a * i + j)
  | (_, [i, j, k]) => 12 + a + a * a + (a * (a * i + j) + k)
  | (nr, _) => nr

theorem number_path (n : ℕ) : number f.addrPerBlock (f.path n) = n := by
  unfold path
  dsimp only
  split_ifs with h1 h2 h3
  · rfl
  · rw [number]; omega
  · rw [number, Nat.div_add_mod]; omega
  · rw [number, ← Nat.div_div_eq_div_mul, Nat.div_add_mod, Nat.div_add_mod]; omega

/-! ### The two walks -/

/-- The buffer is that of the block, and `NULL` stands for 0. -/
def Same (w : Walk Block) (v : Walk (Except Errno Block)) : Prop :=
  w.value = v.value.toOption.getD 0 ∧ v.value ≠ .ok 0 ∧ w.slot = v.slot ∧ w.used = v.used

theorem Same.step {w : Walk Block} {v : Walk (Except Errno Block)} (h : Same w v) (nr : ℕ) :
    Same (f.blockBmap w nr) (f.blockGetblk v nr) := by
  obtain ⟨hval, hne, -, hused⟩ := h
  unfold blockBmap blockGetblk
  cases hv : v.value with
  | error e =>
    rw [hv] at hval
    simp_all [Same, Except.toOption]
  | ok bh =>
    rw [hv] at hval hne
    have hb : bh ≠ 0 := fun h0 => hne (by rw [h0])
    have hw : w.value = bh := hval
    simp only [hw, hb, if_false]
    cases f.disk bh with
    | none => simp_all [Same, Except.toOption]
    | some words => by_cases hz : words nr = 0 <;> simp_all [Same, Except.toOption]

theorem same_foldl (l : List ℕ) : ∀ {w : Walk Block} {v : Walk (Except Errno Block)}, Same w v →
    Same (l.foldl f.blockBmap w) (l.foldl f.blockGetblk v) := by
  induction l with
  | nil => exact fun h => h
  | cons nr l ih => exact fun h => ih (h.step nr)

theorem same_inode (nr : ℕ) : Same (f.inodeBmap nr) (f.inodeGetblk nr) := by
  unfold inodeBmap inodeGetblk
  by_cases hz : f.data nr = 0#32 <;> simp [Same, Except.toOption, hz]

theorem used_subset (l : List ℕ) : ∀ w : Walk Block, ∀ i ∈ (l.foldl f.blockBmap w).used, i ∈ w.used ∨ i ∈ l := by
  induction l with
  | nil => exact fun w i h => .inl h
  | cons nr l ih =>
    intro w i h
    have hstep : ∀ j ∈ (f.blockBmap w nr).used, j ∈ w.used ∨ j = nr := by
      unfold blockBmap
      split_ifs
      · exact fun j hj => .inl hj
      · split
        · exact fun j hj => .inl hj
        · exact fun j hj => (List.mem_cons.mp hj).symm
    obtain h | h := ih _ i h
    · obtain h | rfl := hstep i h
      · exact .inl h
      · exact .inr List.mem_cons_self
    · exact .inr (List.mem_cons_of_mem nr h)

/-! ### Places of pointers -/

theorem slot_walk {nr : ℕ} {l : List ℕ} {i : ℕ} {s : Slot} (h : (f.walk (nr, l ++ [i])).slot = some s) :
    (f.walk (nr, l)).value ≠ 0 ∧ s = .block (f.walk (nr, l)).value i := by
  unfold walk at h ⊢
  rw [List.foldl_concat] at h
  unfold blockBmap at h
  split_ifs at h with hz
  split at h
  · cases h
  · exact ⟨hz, (Option.some.inj h).symm⟩

theorem eq_of_slot (hd : f.Distinct) {p q : ℕ × List ℕ} (hp : f.IsPath p) (hq : f.IsPath q) {s : Slot}
    (hs : (f.walk p).slot = some s) (ht : (f.walk q).slot = some s) : p = q := by
  have hinit : ∀ {nr l i}, f.IsPath (nr, l ++ [i]) → f.IsPath (nr, l) := by
    rintro nr l i ⟨h1, h2, h3⟩
    exact ⟨h1, by simp at h2 ⊢; omega, fun j hj => h3 j (List.mem_append_left _ hj)⟩
  obtain ⟨nr, l⟩ := p
  obtain ⟨mr, m⟩ := q
  induction l using List.reverseRecOn with
  | nil =>
    induction m using List.reverseRecOn with
    | nil =>
      obtain rfl := Option.some.inj hs
      injection Option.some.inj ht with heq
      exact congrArg (·, []) heq.symm
    | append_singleton m j _ =>
      obtain ⟨-, rfl⟩ := slot_walk ht
      cases hs
  | append_singleton l i _ =>
    obtain ⟨hne, rfl⟩ := slot_walk hs
    induction m using List.reverseRecOn with
    | nil => cases ht
    | append_singleton m j _ =>
      obtain ⟨-, heq⟩ := slot_walk ht
      injection heq with hval hij
      have hsame := hd _ _ (hinit hp) (hinit hq) hne hval
      rw [Prod.mk.injEq] at hsame
      rw [hsame.1, hsame.2, hij]

/-- `ext2_bmap` and `ext2_getblk` refuse the same numbers, find the same block at the same place or none, and
use only places in the indirect blocks. -/
def Agree (f : File) (b : ℤ) : Prop :=
  Option.Rel (fun w v => Same w v ∧ ∀ i ∈ w.used, i < f.addrPerBlock) (f.ext2Bmap b) (f.ext2Getblk b)

theorem ext2Bmap_eq_some {b : ℤ} {w : Walk Block} (h : f.ext2Bmap b = some w) :
    ∃ n : ℕ, b = n ∧ n < f.big ∧ w = f.walk (f.path n) := by
  unfold ext2Bmap at h
  split_ifs at h with hneg hbig
  refine ⟨b.toNat, by omega, by omega, ?_⟩
  rw [walk, ← levels_eq]
  exact (Option.some.inj h).symm

/-- **The block map.**  For a file whose pointers are distinct the two functions agree exactly if the
number is not the first one behind the largest file, and distinct numbers lead to distinct pointers. -/
theorem agrees_iff (hd : f.Distinct) :
    (∀ b : ℤ, f.Agree b ↔ b ≠ f.big) ∧ ∀ b c w v, f.ext2Bmap b = some w → f.ext2Bmap c = some v →
      ∀ s, w.slot = some s → v.slot = some s → b = c := by
  refine ⟨fun b => ?_, fun b c w v hw hv s hs ht => ?_⟩
  · unfold Agree
    cases hw : f.ext2Bmap b with
    | some w =>
      obtain ⟨n, rfl, hn, rfl⟩ := ext2Bmap_eq_some hw
      have hget : f.ext2Getblk n = some (f.levels f.inodeGetblk f.blockGetblk n) := by
        unfold ext2Getblk
        rw [if_neg (by omega), if_neg (by omega)]
        rfl
      rw [hget, levels_eq]
      refine iff_of_true (.some ⟨same_foldl _ (same_inode _), fun i hi => ?_⟩) (by omega)
      exact (isPath_path hn).2.2 i ((used_subset _ _ i hi).resolve_left List.not_mem_nil)
    | none =>
      unfold ext2Bmap at hw
      unfold ext2Getblk
      split_ifs at hw ⊢ with h1 h2 h3
      · exact iff_of_true .none (by omega)
      · exact iff_of_true .none (by omega)
      · exact iff_of_false nofun (by omega)
  · obtain ⟨n, rfl, hn, rfl⟩ := ext2Bmap_eq_some hw
    obtain ⟨m, rfl, hm, rfl⟩ := ext2Bmap_eq_some hv
    rw [← number_path (f := f) n, eq_of_slot hd (isPath_path hn) (isPath_path hm) hs ht, number_path]

end File

def hollow : File where
  addrPerBlockBits := 8
  bits := by decide
  data nr := if nr = 14 then 100 else 0
  disk b := if b = 100 then some fun _ => 0 else none

theorem distinct_hollow : hollow.Distinct := by
  have hp : ∀ p : ℕ × List ℕ, (hollow.walk p).value ≠ 0 → p = (14, []) := by
    rintro ⟨nr, l⟩ h
    induction l using List.reverseRecOn with
    | nil =>
      by_cases hnr : nr = 14
      · rw [hnr]
      · exact absurd (if_neg hnr) h
    | append_singleton l i _ =>
      rw [File.walk, List.foldl_concat] at h
      generalize l.foldl hollow.blockBmap (hollow.inodeBmap nr) = w at h
      unfold File.blockBmap hollow at h
      by_cases hz : w.value = 0#32 <;> by_cases hb : w.value = 100#32 <;> simp_all
  intro p q _ _ hne heq
  rw [hp p hne, hp q (heq ▸ hne)]

theorem agrees_iff_hollow : hollow.Agree 5 ∧ ¬ hollow.Agree hollow.big :=
  ⟨((File.agrees_iff distinct_hollow).1 5).mpr (by decide),
    fun h => ((File.agrees_iff distinct_hollow).1 _).mp h rfl⟩

/-- For the first number behind the largest file `ext2_getblk` reads the word behind the block of the third
level. -/
theorem reads_past_block : hollow.Distinct ∧ (hollow.ext2Bmap hollow.big).isNone = true ∧
    (hollow.ext2Getblk hollow.big).map Walk.used = some [256] ∧ hollow.addrPerBlock = 256 :=
  ⟨distinct_hollow, by decide +kernel, by decide +kernel, rfl⟩

end I370Linux.Ext2Bmap
