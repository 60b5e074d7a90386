import Mathlib

/-! # The range check of the block layer

The model of `ll_rw_block` and of the tests of `make_request` (`drivers/block/ll_rw_blk.c`), without
`md`.  The sector of a buffer is computed in 32 bits, and so is the sum that is compared with the size of the
device.  `accepted_iff` says that this is right exactly as long as the sum does not leave the 32 bits. -/

namespace I370Linux.BlockRange

/-- A device: `blksize_size` and `blk_size`, which is in units of 1024 bytes. -/
structure Device where
  correctSize : BitVec 32
  blkSize : BitVec 32
  size : correctSize.toNat % 512 = 0 ∧ correctSize.toNat ≤ 4096
  limit : 0 < blkSize.toNat ∧ blkSize.toNat < 2 ^ 31

/-- A buffer; `passes` is the answer of the tests that do not depend on its place: locked, up to date, dirty, no free
request. -/
structure Buffer where
  blocknr : BitVec 32
  size : BitVec 32
  passes : Bool

def Buffer.count (b : Buffer) : BitVec 32 := b.size >>> 9

/-- `b_rsector`. -/
def Buffer.rsector (b : Buffer) : BitVec 32 := b.blocknr * b.count

/-- The sector at which the buffer is put into a request, if `make_request` accepts it. -/
def makeRequest (dev : Device) (b : Buffer) : Option (BitVec 32) :=
  if dev.blkSize < (b.rsector + b.count) >>> 1 then none
  else if b.passes then some b.rsector
  else none

/-- `ll_rw_block`, with the buffers that are accepted; `readOnly` is set for a write to such a device. -/
def llRwBlock (dev : Device) (readOnly : Bool) (bh : List Buffer) : List (Buffer × BitVec 32) :=
  if bh.any (fun b => b.size ≠ dev.correctSize) ∨ readOnly then []
  else bh.filterMap fun b => (makeRequest dev b).map (b, ·)

/-- The buffer starts at its sector and lies on the device. -/
def OnDevice (dev : Device) (b : Buffer) (sector : BitVec 32) : Prop :=
  sector.toNat = b.blocknr.toNat * (b.size.toNat / 512) ∧
    b.blocknr.toNat * (b.size.toNat / 512) + b.size.toNat / 512 ≤ 2 * dev.blkSize.toNat + 1

theorem mem_llRwBlock {dev : Device} {readOnly : Bool} {bh : List Buffer} {r : Buffer × BitVec 32}
    (h : r ∈ llRwBlock dev readOnly bh) :
    r.1.size = dev.correctSize ∧ r.2 = r.1.rsector ∧ ¬ dev.blkSize < (r.1.rsector + r.1.count) >>> 1 := by
  unfold llRwBlock at h
  split_ifs at h with hbad
  · cases h
  obtain ⟨b, hb, hr⟩ := List.mem_filterMap.mp h
  obtain ⟨sector, hs, rfl⟩ := Option.map_eq_some_iff.mp hr
  unfold makeRequest at hs
  split_ifs at hs with hlim
  · exact ⟨by simp at hbad; exact hbad.1 b hb, (Option.some.inj hs).symm, hlim⟩

/-- **The range check.**  The buffers that are accepted lie on the device exactly if the sector behind each of them
is below 2^32. -/
theorem accepted_iff (dev : Device) (readOnly : Bool) (bh : List Buffer) :
    (∀ r ∈ llRwBlock dev readOnly bh, OnDevice dev r.1 r.2) ↔
      ∀ r ∈ llRwBlock dev readOnly bh, (r.1.blocknr.toNat + 1) * (r.1.size.toNat / 512) < 2 ^ 32 := by
  refine forall₂_congr fun r hr => ?_
  obtain ⟨hsize, hsector, hlim⟩ := mem_llRwBlock hr
  have hcount : r.1.count.toNat = r.1.size.toNat / 512 := by
    simp [Buffer.count, Nat.shiftRight_eq_div_pow]
  have hrs : r.1.rsector.toNat = r.1.blocknr.toNat * (r.1.size.toNat / 512) % 2 ^ 32 := by
    rw [Buffer.rsector, BitVec.toNat_mul, hcount]
  have hle := dev.size.2
  have hblk := dev.limit.2
  rw [← hsize] at hle
  rw [BitVec.lt_def, BitVec.toNat_ushiftRight, BitVec.toNat_add, Nat.shiftRight_eq_div_pow, hcount, hrs] at hlim
  rw [OnDevice, hsector, hrs, add_one_mul (r.1.blocknr.toNat)]
  generalize r.1.blocknr.toNat * (r.1.size.toNat / 512) = p at *
  omega

def floppy : Device := ⟨1024, 1440, by decide, by decide⟩

/-- A huge block number is redirected to the first block, and one behind the last sector number is
accepted. -/
theorem accepts_beyond :
    (llRwBlock floppy false [⟨0x80000000, 1024, true⟩] = [(⟨0x80000000, 1024, true⟩, 0)] ∧
      ¬ OnDevice floppy ⟨0x80000000, 1024, true⟩ 0) ∧
    llRwBlock floppy false [⟨0x7fffffff, 1024, true⟩] = [(⟨0x7fffffff, 1024, true⟩, 0xfffffffe)] ∧
      ¬ OnDevice floppy ⟨0x7fffffff, 1024, true⟩ 0xfffffffe := by
  unfold OnDevice
  exact ⟨⟨rfl, by decide⟩, rfl, by decide⟩

end I370Linux.BlockRange

/-! ### Arrays with NULL pointers

`ll_rw_block` again, for an array in which every pointer may be NULL and with the events instead of the sectors.  The loop
that tests the sizes stores the sector of each buffer without looking for NULL (`handled_iff`). -/

namespace I370Linux.BlockArray

/-- A buffer head: the device it is on, and its size. -/
structure Buffer where
  (major minor size : ℕ)

/-- What the call does: `null` is an access through a NULL pointer, `outside` a read of an array without entries. -/
inductive Event
  | makeRequest (b : Buffer)
  | endIo (b : Buffer)
  | null
  | outside

/-- The tables of the block devices; `blksizeSize` has 0 for a device or a major number without a size. -/
structure Devices where
  requestFn : ℕ → Bool
  blksizeSize : ℕ → ℕ → ℕ
  isReadOnly : ℕ → ℕ → Bool

namespace Devices

variable (dev : Devices)

def present (b : Buffer) : Bool := b.major < 255 && dev.requestFn b.major

def correctSize (b : Buffer) : ℕ :=
  if dev.blksizeSize b.major b.minor = 0 then 1024 else dev.blksizeSize b.major b.minor

end Devices

inductive Verify
  | ok | bad | null

/-- The loop that tests the sizes and prepares the sectors. -/
def verify (correctSize : ℕ) : List (Option Buffer) → Verify
  | [] => .ok
  | none :: _ => .null
  | some b :: bh => if b.size ≠ correctSize then .bad else verify correctSize bh

/-- The call from the first buffer `b` on. -/
def request (dev : Devices) (write : Bool) (b : Buffer) (bh : List (Option Buffer)) : List Event :=
  if dev.present b = false then bh.reduceOption.map .endIo
  else
    match verify (dev.correctSize b) bh with
    | .null => [.null]
    | .bad => bh.reduceOption.map .endIo
    | .ok =>
      if write ∧ dev.isReadOnly b.major b.minor then bh.reduceOption.map .endIo
      else bh.reduceOption.map .makeRequest

/-- `ll_rw_block`: leading NULL pointers are skipped. -/
def llRwBlock (dev : Devices) (write : Bool) : List (Option Buffer) → List Event
  | [] => [.outside]
  | [none] => []
  | none :: bh => llRwBlock dev write bh
  | some b :: bh => request dev write b (some b :: bh)

/-- The request has an error: no device, a wrong size, or a write to a device that is read-only. -/
def Fault (dev : Devices) (write : Bool) : List Buffer → Prop
  | [] => False
  | b :: bs => dev.present b = false ∨ (∃ c ∈ b :: bs, c.size ≠ dev.correctSize b) ∨
      write = true ∧ dev.isReadOnly b.major b.minor = true

/-- Every buffer goes to `make_request`, or on an error to `b_end_io`, and nothing else is done. -/
def Handled (dev : Devices) (write : Bool) (bufs : List Buffer) (events : List Event) : Prop :=
  ¬ Fault dev write bufs ∧ events = bufs.map .makeRequest ∨ Fault dev write bufs ∧ events = bufs.map .endIo

/-- There is no NULL pointer before the first buffer of a wrong size. -/
def Sheltered (n : ℕ) (bh : List (Option Buffer)) : Prop := none ∉ bh.takeWhile (·.all (·.size = n))

variable {dev : Devices} {write : Bool} {n : ℕ} {b : Buffer} {bh : List (Option Buffer)}

theorem verify_ne_null : verify n bh ≠ .null ↔ Sheltered n bh := by
  induction bh with
  | nil => simp [verify, Sheltered]
  | cons p bh ih =>
    cases p with
    | none => simp [verify, Sheltered]
    | some b =>
      unfold verify
      split_ifs with hb
      · simp [Sheltered, hb]
      · simp [ih, Sheltered, not_not.mp hb]

theorem verify_eq_bad (h : verify n bh ≠ .null) : verify n bh = .bad ↔ ∃ c ∈ bh.reduceOption, c.size ≠ n := by
  induction bh with
  | nil => simp [verify]
  | cons p bh ih =>
    cases p with
    | none => exact absurd rfl h
    | some b =>
      unfold verify at h ⊢
      split_ifs at h ⊢ with hb
      · simp [hb]
      · simpa [not_not.mp hb] using ih h

theorem request_iff : Handled dev write (b :: bh.reduceOption) (request dev write b (some b :: bh)) ↔
    (dev.present b = true → Sheltered (dev.correctSize b) (some b :: bh)) := by
  unfold Handled request Fault
  rw [← verify_ne_null]
  by_cases hp : dev.present b = true
  · have hbad := @verify_eq_bad (dev.correctSize b) (some b :: bh)
    rw [List.reduceOption_cons_of_some] at hbad
    simp only [hp, Bool.true_eq_false, if_false]
    cases hv : verify (dev.correctSize b) (some b :: bh) with
    | null => simp
    | bad =>
      rw [hv] at hbad
      exact iff_of_true (.inr ⟨.inr (.inl ((hbad nofun).mp rfl)), rfl⟩) nofun
    | ok =>
      rw [hv] at hbad
      have hsize := mt (hbad nofun).mpr nofun
      refine iff_of_true ?_ nofun
      split_ifs with hw
      · exact .inr ⟨.inr (.inr hw), rfl⟩
      · exact .inl ⟨not_or.mpr ⟨nofun, not_or.mpr ⟨hsize, hw⟩⟩, rfl⟩
  · simp [hp]

/-- **Every buffer is handled** exactly if the array has an entry and every NULL pointer behind the first buffer has a buffer of
a wrong size before it, or there is no device. -/
theorem handled_iff (dev : Devices) (write : Bool) (bh : List (Option Buffer)) :
    Handled dev write bh.reduceOption (llRwBlock dev write bh) ↔ bh ≠ [] ∧
      ∀ b rest, bh.dropWhile Option.isNone = some b :: rest → dev.present b = true →
        Sheltered (dev.correctSize b) (some b :: rest) := by
  fun_induction llRwBlock dev write bh with
  | case1 => simp [Handled, Fault]
  | case2 => simp [Handled, Fault]
  | case3 bh hne ih => simpa [show bh ≠ [] from hne] using ih
  | case4 b bh => simp [request_iff]

/-- A NULL pointer behind a buffer. -/
theorem null_behind : llRwBlock ⟨fun _ => true, fun _ _ => 0, fun _ _ => false⟩ false [some ⟨1, 0, 1024⟩, none] = [.null] :=
  rfl

end I370Linux.BlockArray
