import Mathlib

/-! # Inodes on disk and in memory

The model of `ext2_read_inode` and `ext2_update_inode` of `fs/ext2/inode.c` on a 32-bit big-endian machine.
The disk keeps 16 bits of an owner and of a group, 32 of a size with a high word that a directory uses
for its ACL, and the number of a device in the place of the first block pointer.

`persists_iff` says which inodes of the disk and of the memory survive the way to the other side and back. -/

namespace I370Linux.Ext2Inode

open Function (update update_self)

/-! ### Byte order and device numbers -/

/-- `___swab16`, which is `le16_to_cpu` and `cpu_to_le16` here. -/
def swab16 (x : BitVec 16) : BitVec 16 := (x &&& 0x00ff) <<< 8 ||| (x &&& 0xff00) >>> 8

/-- `___swab32`, which is `le32_to_cpu` and `cpu_to_le32` here. -/
def swab32 (x : BitVec 32) : BitVec 32 :=
  (x &&& 0x000000ff) <<< 24 ||| (x &&& 0x0000ff00) <<< 8 ||| (x &&& 0x00ff0000) >>> 8 |||
    (x &&& 0xff000000) >>> 24

@[simp] theorem swab16_swab16 (x : BitVec 16) : swab16 (swab16 x) = x := by
  ext i hi
  interval_cases i <;> simp [swab16]

@[simp] theorem swab32_swab32 (x : BitVec 32) : swab32 (swab32 x) = x := by
  ext i hi
  interval_cases i <;> simp [swab32]

@[simp] theorem swab32_inj {x y : BitVec 32} : swab32 x = swab32 y ↔ x = y :=
  (Function.LeftInverse.injective swab32_swab32).eq_iff

theorem setWidth_eq_iff (x : BitVec 32) : (x.setWidth 16).setWidth 32 = x ↔ x.toNat < 65536 := by
  rw [← BitVec.toNat_inj, BitVec.toNat_setWidth, BitVec.toNat_setWidth]
  omega

/-! ### The two forms of an inode -/

/-- `struct ext2_inode`, in the byte order of the disk.  `dirAcl` is also `i_size_high`. -/
structure Raw where
  (mode uid : BitVec 16)
  (size atime ctime mtime dtime : BitVec 32)
  (gid linksCount : BitVec 16)
  (blocks flags : BitVec 32)
  block : Fin 15 → BitVec 32
  (version fileAcl dirAcl faddr : BitVec 32)
  (frag fsize : BitVec 8)

/-- `struct inode` with its `ext2_inode_info`. -/
structure Inode where
  ino : ℕ
  mode : BitVec 16
  (uid gid : BitVec 32)
  (nlink rdev : BitVec 16)
  (size atime ctime mtime blocks : BitVec 32)
  data : Fin 15 → BitVec 32
  (flags faddr : BitVec 32)
  (fragNo fragSize : BitVec 8)
  (fileAcl dirAcl dtime version : BitVec 32)
  blockGroup : ℕ
  highSize : BitVec 32

def sIsdir (mode : BitVec 16) : Bool := mode &&& 0o170000 = 0o040000

/-- `S_ISCHR` or `S_ISBLK`. -/
def isDevice (mode : BitVec 16) : Bool := mode &&& 0o170000 = 0o020000 || mode &&& 0o170000 = 0o060000

/-- What the mounted filesystem knows of itself.  `groupDesc` gives for each buffer of descriptors the
fields `bg_inode_table`. -/
structure Super where
  (firstIno inodesCount inodesPerGroup groupsCount : ℕ)
  (descPerBlockBits inodeSize blockSizeBits : ℕ)
  groupDesc : ℕ → Option (ℕ → BitVec 32)

/-- The blocks that `bread` can read, with the inodes at their offsets. -/
abbrev Disk := ℕ → Option (ℕ → Raw)

/-- The place of an inode: its group, the block of the table, the offset in it, and the buffer. -/
structure Slot where
  blockGroup : ℕ
  block : ℕ
  offset : ℕ
  data : ℕ → Raw

namespace Super

/-- What both functions do to find an inode whose number they have accepted. -/
def slot (sb : Super) (disk : Disk) (ino : ℕ) : Option Slot :=
  let blockGroup := (ino - 1) / sb.inodesPerGroup
  if blockGroup ≥ sb.groupsCount then none
  else
    match sb.groupDesc (blockGroup >>> sb.descPerBlockBits) with
    | none => none
    | some gdp =>
      let desc := blockGroup &&& (2 ^ sb.descPerBlockBits - 1)
      let offset := (ino - 1) % sb.inodesPerGroup * sb.inodeSize
      let block := (swab32 (gdp desc)).toNat + offset >>> sb.blockSizeBits
      (disk block).map (⟨blockGroup, block, offset &&& (2 ^ sb.blockSizeBits - 1), ·⟩)

/-- The numbers that `ext2_update_inode` accepts, with `EXT2_ROOT_INO` 2. -/
def writable (sb : Super) (ino : ℕ) : Bool := (ino = 2 || sb.firstIno ≤ ino) && ino ≤ sb.inodesCount

end Super

/-! ### What survives -/

/-- The mode, the owners, both words of the size, the link and block counts, the flags and the block
pointers are the same. -/
def Raw.Same (a b : Raw) : Prop :=
  a.mode = b.mode ∧ a.uid = b.uid ∧ a.gid = b.gid ∧ a.size = b.size ∧ a.dirAcl = b.dirAcl ∧
    a.linksCount = b.linksCount ∧ a.blocks = b.blocks ∧ a.flags = b.flags ∧ a.block = b.block

def Inode.Same (a b : Inode) : Prop := a.uid = b.uid ∧ a.gid = b.gid ∧ a.mode = b.mode ∧ a.size = b.size

/-- A file of 4 GB or more has the size that stands for all of them, and a device has a number of 16
bits. -/
def Raw.Keeps (raw : Raw) : Prop :=
  (sIsdir (swab16 raw.mode) = true ∨ raw.dirAcl = 0 ∨ raw.size = -1) ∧
    (isDevice (swab16 raw.mode) = true → (swab32 (raw.block 0)).toNat < 65536)

/-- The owner and the group have 16 bits, and a file with a high word of the size has the size that
stands for all such files. -/
def Inode.Keeps (inode : Inode) : Prop :=
  inode.uid.toNat < 65536 ∧ inode.gid.toNat < 65536 ∧
    (sIsdir inode.mode = true ∨ inode.highSize = 0 ∨ inode.size = -1)

@[simp] theorem swab32_neg_one : swab32 4294967295#32 = 4294967295#32 := by decide

@[simp] theorem swab32_eq_zero {x : BitVec 32} : swab32 x = 0#32 ↔ x = 0#32 := by
  have hz : swab32 0#32 = 0#32 := by decide
  rw [← swab32_inj, swab32_swab32, hz]

namespace Super

variable {sb : Super} {disk : Disk} {ino : ℕ} {raw : Raw}

end Super

/-- One group whose inode table begins at the block 5, and all inodes are zero. -/
def plain : Super := ⟨11, 100, 100, 1, 5, 128, 10, fun _ => some fun _ => swab32 5⟩

def blank : Raw := ⟨0, 0, 0, 0, 0, 0, 0, 0, 0, 0, 0, 0, 0, 0, 0, 0, 0, 0⟩

end I370Linux.Ext2Inode
