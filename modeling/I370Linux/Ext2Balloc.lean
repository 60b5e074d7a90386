import Mathlib

/-! # Blocks that are given back

`ext2_free_blocks` of `fs/ext2/balloc.c` splits a range where a group ends and, with `CHECK_STRICT`, tests each part against
the bitmaps and the inode table of its group.  It looks only for the first and the last block of a part in the inode table, and
its sums wrap (`spares_iff_clear`). -/

namespace I370Linux.Ext2Balloc

/-- A mounted filesystem, with the blocks that the descriptors of the groups name. -/
structure Super where
  (firstDataBlock blocksCount blocksPerGroup groupsCount itbPerGroup : ℕ)
  (blockBitmap inodeBitmap inodeTable : ℕ → ℕ)
  checkStrict : Bool
  pos : 0 < blocksPerGroup

/-- `first + len - 1`. -/
def last (first len : ℕ) : ℕ := (first + len + (2 ^ 32 - 1)) % 2 ^ 32

def inRange (b first len : ℕ) : Bool := decide (first ≤ b ∧ b ≤ last first len)

namespace Super

variable (sb : Super) {block count : ℕ} {load : ℕ → Bool} {p : ℕ × ℕ}

def blockGroup (block : ℕ) : ℕ := (block - sb.firstDataBlock) / sb.blocksPerGroup

def bit (block : ℕ) : ℕ := (block - sb.firstDataBlock) % sb.blocksPerGroup

/-- The blocks of a range behind the end of its first group. -/
def overflow (block count : ℕ) : ℕ := (sb.bit block + count) % 2 ^ 32 - sb.blocksPerGroup

/-- The test for which `ext2_free_blocks` panics. -/
def inSystemZones (block count : ℕ) : Bool :=
  let g := sb.blockGroup block
  sb.checkStrict && (inRange (sb.blockBitmap g) block count || inRange (sb.inodeBitmap g) block count ||
    inRange block (sb.inodeTable g) sb.itbPerGroup || inRange (last block count) (sb.inodeTable g) sb.itbPerGroup)

theorem bit_lt (block : ℕ) : sb.bit block < sb.blocksPerGroup := Nat.mod_lt _ sb.pos

theorem overflow_lt (h : sb.overflow block count ≠ 0) : sb.overflow block count < count := by
  have hbit := sb.bit_lt block
  unfold overflow at h ⊢
  omega

/-- The loop at `do_more`: the parts that it frees, with their lengths.  `load` says which bitmaps can be read. -/
def doMore (sb : Super) (load : ℕ → Bool) (block count : ℕ) : List (ℕ × ℕ) :=
  let part := count - sb.overflow block count
  if load (sb.blockGroup block) ∧ sb.blockGroup block < sb.groupsCount ∧ sb.inSystemZones block part = false then
    (block, part) :: if h : sb.overflow block count = 0 then []
      else doMore sb load ((block + part) % 2 ^ 32) (sb.overflow block count)
  else []
termination_by count
decreasing_by exact sb.overflow_lt h

/-- `ext2_free_blocks`. -/
def freeBlocks (load : ℕ → Bool) (block count : BitVec 32) : List (ℕ × ℕ) :=
  if block.toNat < sb.firstDataBlock ∨ sb.blocksCount < (block + count).toNat then []
  else sb.doMore load block.toNat count.toNat

/-- The bits that are cleared for a part, each in the bitmap of a group. -/
def cleared (p : ℕ × ℕ) : List (ℕ × ℕ) :=
  (List.range p.2).map fun i => (sb.blockGroup p.1, (sb.bit p.1 + i) % 2 ^ 32)

/-- The block holds a bitmap of the group or a piece of its inode table. -/
def IsMeta (g b : ℕ) : Prop :=
  b = sb.blockBitmap g ∨ b = sb.inodeBitmap g ∨ sb.inodeTable g ≤ b ∧ b < sb.inodeTable g + sb.itbPerGroup

def start (g : ℕ) : ℕ := sb.firstDataBlock + g * sb.blocksPerGroup

/-- The bit is that of a block of the filesystem without metadata. -/
def Spares (q : ℕ × ℕ) : Prop :=
  q.2 < sb.blocksPerGroup ∧ sb.start q.1 + q.2 < sb.blocksCount ∧ ∀ g < sb.groupsCount, ¬ sb.IsMeta g (sb.start q.1 + q.2)

/-- `ext2_check_descriptors` has found the metadata of each group in the group. -/
structure Mounted : Prop where
  strict : sb.checkStrict = true
  table : 0 < sb.itbPerGroup
  count : sb.blocksCount < 2 ^ 32
  groups : ∀ g < sb.groupsCount, sb.start g + sb.blocksPerGroup < 2 ^ 32
  own : ∀ g < sb.groupsCount, ∀ b, sb.IsMeta g b → b < 2 ^ 32 ∧ sb.blockGroup b = g

/-- The part ends in the filesystem, and the inode table is not between its first and its last block. -/
def Clear (p : ℕ × ℕ) : Prop :=
  let table := sb.inodeTable (sb.blockGroup p.1)
  p.1 + p.2 ≤ sb.blocksCount ∧ ¬ (p.1 < table ∧ table + sb.itbPerGroup < p.1 + p.2)

structure Part (p : ℕ × ℕ) : Prop where
  block : p.1 = sb.start (sb.blockGroup p.1) + sb.bit p.1
  group : sb.blockGroup p.1 < sb.groupsCount
  split : sb.bit p.1 + p.2 ≤ sb.blocksPerGroup ∨ 2 ^ 32 ≤ sb.bit p.1 + p.2
  zones : sb.inSystemZones p.1 p.2 = false

variable {sb}

theorem blockGroup_start {g k : ℕ} (h : k < sb.blocksPerGroup) : sb.blockGroup (sb.start g + k) = g := by
  rw [blockGroup, start, Nat.add_assoc, Nat.add_sub_cancel_left, mul_comm, Nat.mul_add_div sb.pos, Nat.div_eq_of_lt h]
  rfl

theorem part_of_mem (h : sb.Mounted) (hb : sb.firstDataBlock ≤ block) (hc : count < 2 ^ 32)
    (hp : p ∈ sb.doMore load block count) : sb.Part p := by
  induction count using Nat.strong_induction_on generalizing block with
  | _ count ih =>
    have hbit := sb.bit_lt block
    rw [doMore] at hp
    split at hp
    · next hgo =>
      have hblock : block = sb.start (sb.blockGroup block) + sb.bit block := by
        have := Nat.div_add_mod' (block - sb.firstDataBlock) sb.blocksPerGroup
        unfold start blockGroup bit
        omega
      obtain rfl | hp := List.mem_cons.mp hp
      · refine ⟨hblock, hgo.2.1, ?_, hgo.2.2⟩
        unfold overflow
        dsimp only
        omega
      split at hp
      · cases hp
      · next ho =>
        refine ih _ (sb.overflow_lt ho) ?_ ((sb.overflow_lt ho).trans hc) hp
        have hnext := h.groups _ hgo.2.1
        unfold overflow at ho ⊢
        omega
    · cases hp

theorem Part.spares_iff (h : sb.Mounted) (hp : sb.Part p) :
    (∀ q ∈ sb.cleared p, sb.Spares q) ↔ (0 < p.2 → sb.Clear p) := by
  obtain ⟨hblock, hg, hsplit, hzones⟩ := hp
  have hbit := sb.bit_lt p.1
  have hnext := h.groups _ hg
  have hitb := h.table
  have hcount := h.count
  have htable := h.own _ hg (sb.inodeTable (sb.blockGroup p.1) + sb.itbPerGroup - 1) (.inr (.inr (by omega)))
  simp only [inSystemZones, h.strict, Bool.true_and, Bool.or_eq_false_iff, inRange, decide_eq_false_iff_not] at hzones
  unfold last at hzones
  simp only [cleared, List.mem_map, List.mem_range, forall_exists_index, and_imp, forall_apply_eq_imp_iff₂]
  constructor
  · intro hall hpos
    have hnowrap : sb.bit p.1 + p.2 ≤ sb.blocksPerGroup := by
      by_contra hlong
      have := (hall (sb.blocksPerGroup - sb.bit p.1) (by omega)).1
      omega
    refine ⟨?_, fun hcov => ?_⟩
    · have := (hall (p.2 - 1) (by omega)).2.1
      dsimp only at this
      omega
    · refine (hall (sb.inodeTable (sb.blockGroup p.1) - p.1) (by omega)).2.2 _ hg (.inr (.inr ?_))
      dsimp only
      omega
  · intro hclear i hi
    obtain ⟨hin, hcov⟩ := hclear (by omega)
    rw [Nat.mod_eq_of_lt (by omega)]
    have hlt : sb.bit p.1 + i < sb.blocksPerGroup := by omega
    refine ⟨hlt, by dsimp only; omega, fun g hg' hmeta => ?_⟩
    obtain rfl : sb.blockGroup p.1 = g := (blockGroup_start hlt).symm.trans (h.own g hg' _ hmeta).2
    unfold IsMeta at hmeta
    dsimp only at hmeta
    omega

/-- **Strict mode.** `ext2_free_blocks` clears only bits of blocks of the filesystem without metadata exactly if each part that
passes the test ends in the filesystem and has no inode table inside. -/
theorem spares_iff_clear (h : sb.Mounted) (load : ℕ → Bool) (block count : BitVec 32) :
    (∀ p ∈ sb.freeBlocks load block count, ∀ q ∈ sb.cleared p, sb.Spares q) ↔
      ∀ p ∈ sb.freeBlocks load block count, 0 < p.2 → sb.Clear p := by
  refine forall₂_congr fun p hp => ?_
  unfold freeBlocks at hp
  split_ifs at hp with hz
  · cases hp
  · rw [not_or, not_lt] at hz
    exact (part_of_mem h hz.1 count.isLt hp).spares_iff h

end Super

/-- One group with the bitmaps in the blocks 3 and 4 and the inode table in 6 and 7. -/
def oneGroup : Super := ⟨1, 64, 64, 1, 2, fun _ => 3, fun _ => 4, fun _ => 6, true, by decide⟩

theorem oneGroup_mounted : oneGroup.Mounted := by
  refine ⟨rfl, by decide, by decide, by decide, fun g hg b hb => ?_⟩
  unfold Super.IsMeta at hb
  simp only [oneGroup, Super.blockGroup] at *
  omega

/-- The four blocks from 10 on. -/
theorem spares_iff_clear_four : oneGroup.Mounted ∧
    ∀ p ∈ oneGroup.freeBlocks (fun _ => true) 10 4, ∀ q ∈ oneGroup.cleared p, oneGroup.Spares q := by
  refine ⟨oneGroup_mounted, (Super.spares_iff_clear oneGroup_mounted _ 10 4).mpr ?_⟩
  rw [Super.freeBlocks, if_neg (by decide), Super.doMore]
  rintro p hp -
  obtain rfl : p = (10, 4) := List.mem_singleton.mp hp
  exact ⟨by decide, by decide⟩

/-- The four blocks from 5 on have the inode table inside, and its bits are cleared. -/
theorem frees_table : oneGroup.Mounted ∧ oneGroup.freeBlocks (fun _ => true) 5 4 = [(5, 4)] ∧
    (0, 5) ∈ oneGroup.cleared (5, 4) ∧ ¬ oneGroup.Spares (0, 5) := by
  refine ⟨oneGroup_mounted, ?_, by decide, fun h => h.2.2 0 (by decide) (.inr (.inr (by decide)))⟩
  rw [Super.freeBlocks, if_neg (by decide), Super.doMore]
  rfl

end I370Linux.Ext2Balloc
