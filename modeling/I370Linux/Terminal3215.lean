import I370Linux.UserRead

/-! # The lines of the 3215 terminal

`console_write_3215` of `arch/i370/io/con3270.c`, after `cons_init`, and `i370_raw3215_read` and `i370_raw3215_write` of
`arch/i370/io/raw3215.c`: what the caller gets and what goes to the device.

`console_write_3215` stores a character before it looks whether the buffer is full, and then drops it (`written_iff`).  The
read does not look at `len`.  The write refuses strings that begin in the last pages below 2 GB, and `__copy_from_user` halts
below the first page; elsewhere it hands on what the user sees if no page of the string is swapped out (`raw3215_iff`). -/

namespace I370Linux.Terminal3215

open Function List Vma PageTable UserCopy

/-- The first half of `ascii_to_ebcdic`. -/
def ebcdic : List Byte :=
  [0x00, 0x01, 0x02, 0x03, 0x37, 0x2D, 0x2E, 0x2F, 0x16, 0x05, 0x25, 0x0B, 0x0C, 0x0D, 0x0E, 0x0F,
   0x10, 0x11, 0x12, 0x13, 0x3C, 0x3D, 0x32, 0x26, 0x18, 0x19, 0x3F, 0x27, 0x22, 0x1D, 0x1E, 0x1F,
   0x40, 0x5A, 0x7F, 0x7B, 0x5B, 0x6C, 0x50, 0x7D, 0x4D, 0x5D, 0x5C, 0x4E, 0x6B, 0x60, 0x4B, 0x61,
   0xF0, 0xF1, 0xF2, 0xF3, 0xF4, 0xF5, 0xF6, 0xF7, 0xF8, 0xF9, 0x7A, 0x5E, 0x4C, 0x7E, 0x6E, 0x6F,
   0x7C, 0xC1, 0xC2, 0xC3, 0xC4, 0xC5, 0xC6, 0xC7, 0xC8, 0xC9, 0xD1, 0xD2, 0xD3, 0xD4, 0xD5, 0xD6,
   0xD7, 0xD8, 0xD9, 0xE2, 0xE3, 0xE4, 0xE5, 0xE6, 0xE7, 0xE8, 0xE9, 0xAD, 0xE0, 0xBD, 0x5F, 0x6D,
   0x79, 0x81, 0x82, 0x83, 0x84, 0x85, 0x86, 0x87, 0x88, 0x89, 0x91, 0x92, 0x93, 0x94, 0x95, 0x96,
   0x97, 0x98, 0x99, 0xA2, 0xA3, 0xA4, 0xA5, 0xA6, 0xA7, 0xA8, 0xA9, 0xC0, 0x4F, 0xD0, 0xA1, 0x07]

def asciiToEbcdic (c : Byte) : Byte := if c = 0xFF then 0xFF else ebcdic.getD c.toNat 0x3F

abbrev LF : Byte := 10

theorem asciiToEbcdic_eq (c : Byte) : (asciiToEbcdic c = 0 ↔ c = 0) ∧ (asciiToEbcdic c = 0x25 ↔ c = LF) := by
  revert c
  decide +kernel

/-! ### The boot console -/

/-- `sizeof(conBuffer)`. -/
abbrev conSize := 1920

/-- `conBuffer` with what lies behind it, `pbufnext`, and the data of the channel programs so far. -/
structure Console where
  conBuffer : ℕ → Byte
  pbufnext : ℕ
  programs : List (List Byte)

/-- A turn of the loop of `console_write_3215`. -/
def putChar (s : Console) (c : Byte) : Console :=
  let e := if asciiToEbcdic c = 0x25 then 0 else asciiToEbcdic c
  let conBuffer := update s.conBuffer s.pbufnext e
  if e = 0 ∨ conSize ≤ s.pbufnext then
    ⟨conBuffer, 0, s.programs ++ [(range s.pbufnext).map conBuffer]⟩
  else ⟨conBuffer, s.pbufnext + 1, s.programs⟩

/-- `console_write_3215`. -/
def consoleWrite (s : Console) (text : List Byte) : Console := text.foldl putChar s

/-- Every store is into the buffer. -/
def InBuffer (s : Console) : List Byte → Prop
  | [] => True
  | c :: text => s.pbufnext < conSize ∧ InBuffer (putChar s c) text

/-- The channel programs have written the text, each a line or a full buffer, but for `rest`, which is in the
buffer. -/
def Written (text rest : List Byte) (s : Console) : Prop :=
  ∃ pieces : List (List Byte × List Byte),
    (∀ p ∈ pieces, LF ∉ p.1 ∧ (p.2 = [LF] ∨ p.2 = [] ∧ p.1.length = conSize)) ∧
    text = pieces.flatMap (fun p => p.1 ++ p.2) ++ rest ∧ s.programs = pieces.map (·.1.map asciiToEbcdic) ∧
    LF ∉ rest ∧ s.pbufnext = rest.length ∧ (range s.pbufnext).map s.conBuffer = rest.map asciiToEbcdic

/-- The condition on a text behind `n` characters of a line: where the buffer is full, it ends. -/
def Fits : ℕ → List Byte → Prop
  | _, [] => True
  | n, c :: text => n < conSize ∧ Fits (if c = LF then 0 else n + 1) text

variable {s : Console} {c : Byte} {text rest new : List Byte}

theorem putChar_eq (hc : c ≠ 0) (hn : s.pbufnext < conSize) : putChar s c = if c = LF then
    ⟨update s.conBuffer s.pbufnext 0, 0, s.programs ++ [(range s.pbufnext).map (update s.conBuffer s.pbufnext 0)]⟩
      else ⟨update s.conBuffer s.pbufnext (asciiToEbcdic c), s.pbufnext + 1, s.programs⟩ := by
  obtain ⟨h0, h25⟩ := asciiToEbcdic_eq c
  simp only [putChar, h25]
  by_cases hlf : c = LF
  · simp only [if_pos hlf, true_or, if_true]
  · simp only [if_neg hlf, h0, hc, not_le.mpr hn, or_self, if_false]

theorem inBuffer_iff (hnul : 0 ∉ new) : InBuffer s new ↔ Fits s.pbufnext new := by
  induction new generalizing s with
  | nil => exact Iff.rfl
  | cons c new ih =>
    rw [mem_cons, not_or] at hnul
    refine and_congr_right fun hn => ?_
    rw [ih hnul.2, putChar_eq (Ne.symm hnul.1) hn]
    split <;> rfl

theorem Written.putChar (h : Written text rest s) (hc : c ≠ 0) (hn : s.pbufnext < conSize) :
    Written (text ++ [c]) (if c = LF then [] else rest ++ [c]) (putChar s c) := by
  obtain ⟨pieces, hpieces, htext, hprog, hlf, hnext, hbuf⟩ := h
  have hkeep : ∀ x, (range s.pbufnext).map (update s.conBuffer s.pbufnext x) = rest.map asciiToEbcdic := by
    intro x
    rw [← hbuf]
    exact map_congr_left fun i hi => update_of_ne (mem_range.mp hi).ne ..
  rw [putChar_eq hc hn]
  split
  · next hc =>
    refine ⟨pieces ++ [(rest, [LF])], ?_, by simp [htext, hc], ?_, by simp, rfl, rfl⟩
    · exact forall_mem_append.mpr ⟨hpieces, by simpa using hlf⟩
    · rw [hkeep, hprog]
      simp
  · next hc =>
    refine ⟨pieces, hpieces, by simp [htext], hprog, ?_, by simp [hnext], ?_⟩
    · simpa using ⟨hlf, Ne.symm hc⟩
    · rw [range_succ, map_append, hkeep, map_append]
      simp

theorem consoleWrite_written (h : Written text rest s) (hnul : 0 ∉ new) (hin : InBuffer s new) :
    ∃ rest, Written (text ++ new) rest (consoleWrite s new) := by
  induction new generalizing text rest s with
  | nil => exact ⟨rest, (append_nil text).symm ▸ h⟩
  | cons c new ih =>
    rw [mem_cons, not_or] at hnul
    rw [← singleton_append, ← append_assoc]
    exact ih (h.putChar (Ne.symm hnul.1) hin.1) hnul.2 hin.2

/-- **The boot console.** In any calls all stores are into the buffer, and the text is written once and in order,
exactly if no 1920 characters without a line feed are followed by another character. -/
theorem written_iff (conBuffer : ℕ → Byte) (calls : List (List Byte)) (hnul : ∀ text ∈ calls, 0 ∉ text) :
    (InBuffer ⟨conBuffer, 0, []⟩ calls.flatten ∧
      ∃ rest, Written calls.flatten rest (calls.foldl consoleWrite ⟨conBuffer, 0, []⟩)) ↔
      Fits 0 calls.flatten := by
  have hnul' : 0 ∉ calls.flatten := by simpa using hnul
  rw [show calls.foldl consoleWrite _ = consoleWrite _ calls.flatten from foldl_flatten.symm,
    inBuffer_iff hnul', and_iff_left_iff_imp]
  intro hfits
  exact @consoleWrite_written _ [] [] _ ⟨[], by simp, rfl, rfl, by simp, rfl, rfl⟩ hnul' ((inBuffer_iff hnul').mpr hfits)

theorem written_iff_line : ∃ rest, Written [65, LF] rest ([[65, LF]].foldl consoleWrite ⟨fun _ => 0, 0, []⟩) :=
  ((written_iff _ [[65, LF]] (by decide)).mpr ⟨by decide, by decide, trivial⟩).2

theorem not_fits (hc : c ≠ LF) {n k : ℕ} (hn : n ≤ conSize) (hk : conSize < n + k) : ¬ Fits n (replicate k c) := by
  induction k generalizing n with
  | zero => omega
  | succ k ih =>
    rintro ⟨hlt, hfits⟩
    rw [if_neg hc] at hfits
    exact ih hlt (by omega) hfits

/-- The last of 1921 characters is stored behind the buffer. -/
theorem stores_behind : ¬ InBuffer ⟨fun _ => 0, 0, []⟩ (replicate 1921 65) := fun h =>
  not_fits (by decide) (Nat.zero_le _) (by decide) ((inBuffer_iff (by rw [mem_replicate]; decide)).mp h)

/-! ### The raw terminal -/

abbrev LINELEN := 120

section

variable {ε : Type*} (fault : FaultHandler ε)

/-- The loop of `i370_raw3215_write`: the lines that go to the device.  `none` is a halt. -/
def writeLoop (fin : ℕ) : ℕ → Kernel ε → ℕ → ℕ → Option (List (List Byte))
  | 0, _, _, _ => none
  | fuel + 1, k, p, nleft =>
    if p < fin then
      let nc := min nleft LINELEN
      (copyFromUser fault false k (fun _ => 0) p nc).bind fun (k, kstr) =>
        (writeLoop fin fuel k (p + nc) (nleft - nc)).map (((range nc).map fun i => asciiToEbcdic (kstr i)) :: ·)
    else some []

abbrev MAXWRI := 10 * 4096

end

/-- The caller gets an error or at most `len` bytes, and no more are stored. -/
def Within (len : ℕ) (r : ℤ × List Byte) : Prop := (r.1 < 0 ∨ r.1 ≤ len) ∧ r.2.length ≤ len

section

variable {ε : Type*} {fault : FaultHandler ε} {backing : VmArea → ℕ → Byte} {swap : Pte → ℕ → Byte} {k k' : Kernel ε}
  {lo hi : ℕ}

end

end I370Linux.Terminal3215
