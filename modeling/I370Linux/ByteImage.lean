import I370Linux.PagedStore

/-! # Images of structures in a byte store

A structure is laid out as a run of big-endian words.  `putWord` stores one in an image (a function
from offsets to bytes), `putWords` a list of them, and `getWord` reads one back; a store is read back
where it was made and leaves the other words alone.

`view mem a` is the part of a store with wrapping addresses that starts at `a`, as a function of the
offset. -/

namespace I370Linux.ByteImage

open PagedStore

abbrev Byte := BitVec 8
abbrev Word := BitVec 32

/-- The `n` low bytes of a word, the high one first. -/
def bytesOf (v : Word) (n : ℕ) : ℕ → Byte := fun i => (v >>> (8 * (n - 1 - i))).setWidth 8

/-- Store the `n` low bytes of a word in an image. -/
def putInt (img : ℕ → Byte) (d : ℕ) (v : Word) (n : ℕ) : ℕ → Byte := blit img d (bytesOf v n) 0 n

def putWord (img : ℕ → Byte) (d : ℕ) (v : Word) : ℕ → Byte := putInt img d v 4

def getWord (img : ℕ → Byte) (d : ℕ) : Word := img d ++ img (d + 1) ++ img (d + 2) ++ img (d + 3)

variable {img : ℕ → Byte} {d n x : ℕ} {v : Word}

theorem putInt_inside (h : d ≤ x) (h' : x < d + n) : putInt img d v n x = bytesOf v n (x - d) := by
  rw [putInt, blit_inside h h', zero_add]

theorem putInt_outside (h : x < d ∨ d + n ≤ x) : putInt img d v n x = img x := blit_outside h

theorem getWord_congr {img img' : ℕ → Byte} {d : ℕ} (h : ∀ x, d ≤ x → x < d + 4 → img x = img' x) :
    getWord img d = getWord img' d := by
  unfold getWord
  rw [h d (by omega) (by omega), h (d + 1) (by omega) (by omega), h (d + 2) (by omega) (by omega),
    h (d + 3) (by omega) (by omega)]

theorem getWord_putWord (img : ℕ → Byte) (d : ℕ) (v : Word) : getWord (putWord img d v) d = v := by
  have hbyte : ∀ i < 4, putWord img d v (d + i) = bytesOf v 4 i := by
    intro i hi
    rw [putWord, putInt_inside (Nat.le_add_right d i) (by omega), Nat.add_sub_cancel_left]
  unfold getWord
  rw [show putWord img d v d = bytesOf v 4 0 from hbyte 0 (by decide), hbyte 1 (by decide),
    hbyte 2 (by decide), hbyte 3 (by decide)]
  -- bit by bit: each byte is the one of the word at its place
  apply BitVec.eq_of_getLsbD_eq
  intro i hi
  simp only [bytesOf, BitVec.getLsbD_append, BitVec.getLsbD_setWidth, BitVec.getLsbD_ushiftRight]
  split_ifs
  all_goals simp
  all_goals grind

theorem getWord_putInt {e : ℕ} (h : e + 4 ≤ d ∨ d + n ≤ e) : getWord (putInt img d v n) e = getWord img e :=
  getWord_congr fun x hx hx' => putInt_outside (by omega)

def putWords (img : ℕ → Byte) (d : ℕ) : List Word → ℕ → Byte
  | [] => img
  | v :: l => putWords (putWord img d v) (d + 4) l

theorem putWords_outside : ∀ {l : List Word} {img : ℕ → Byte} {d x : ℕ},
    x < d ∨ d + 4 * l.length ≤ x → putWords img d l x = img x
  | [], _, _, _, _ => rfl
  | v :: l, img, d, x, h => by
    rw [List.length_cons] at h
    rw [putWords, putWords_outside (by omega), putWord, putInt_outside (by omega)]

theorem getWord_putWords : ∀ {l : List Word} {img : ℕ → Byte} {d i : ℕ} {v : Word},
    l[i]? = some v → getWord (putWords img d l) (d + 4 * i) = v
  | [], _, _, _, _, h => by simp at h
  | w :: l, img, d, 0, v, h => by
    rw [List.getElem?_cons_zero, Option.some.injEq] at h
    subst h
    rw [putWords, mul_zero, add_zero,
      @getWord_congr _ (putWord img d w) _ fun x _ hx' => putWords_outside (by omega)]
    exact getWord_putWord img d w
  | w :: l, img, d, i + 1, v, h => by
    rw [List.getElem?_cons_succ] at h
    rw [putWords, show d + 4 * (i + 1) = d + 4 + 4 * i by ring]
    exact getWord_putWords h

/-! ### Stores with wrapping addresses -/

variable {w : ℕ}

/-- The store from the address `a` on. -/
def view (mem : BitVec w → Byte) (a : BitVec w) (d : ℕ) : Byte := mem (a + BitVec.ofNat w d)

theorem view_add (mem : BitVec w → Byte) (a : BitVec w) (e d : ℕ) :
    view mem (a + BitVec.ofNat w e) d = view mem a (e + d) := by
  rw [view, view, BitVec.ofNat_add, BitVec.add_assoc]

end I370Linux.ByteImage
