import Mathlib

/-! # The AVL trees of `mm/mmap_avl.c`

A node keeps its height, as `vm_avl_height` does, and the functions read heights from the nodes.
The stack of node places that `avl_insert` and `avl_remove` fill on their way down is a list of
frames, the deepest one first; `avl_rebalance` pops them and stops where a height is unchanged.

Keys are a function of the nodes and not part of the tree, since `vm_end` is edited in place while
the area is linked.  What the callers rely on is the list of the nodes in order: insertion and
removal act on it as on a sorted list (`avlInsert_inorder`, `avlRemove_inorder`), and both keep the
balancing rules 1 and 2 of the source (`avlInsert_balanced`, `avlRemove_balanced`). -/

namespace I370Linux.MmapAvl

/-- A tree; `nil` is `vm_avl_empty`. -/
inductive AvlTree (α : Type) where
  | nil
  | node (left : AvlTree α) (x : α) (height : ℕ) (right : AvlTree α)
deriving DecidableEq, Repr

/-- A place on the stack: the node there, without the son the walk went down to. -/
inductive Frame (α : Type) where
  | left (x : α) (height : ℕ) (right : AvlTree α)
  | right (left : AvlTree α) (x : α) (height : ℕ)

variable {α κ : Type}

namespace AvlTree

/-- The macro `heightof`. -/
def heightof : AvlTree α → ℕ
  | nil => 0
  | node _ _ h _ => h

def inorder : AvlTree α → List α
  | nil => []
  | node l x _ r => l.inorder ++ x :: r.inorder

@[simp] theorem heightof_nil : (nil : AvlTree α).heightof = 0 := rfl
@[simp] theorem heightof_node (l r : AvlTree α) (x : α) (h : ℕ) : (node l x h r).heightof = h := rfl
@[simp] theorem inorder_nil : (nil : AvlTree α).inorder = [] := rfl
@[simp] theorem inorder_node (l r : AvlTree α) (x : α) (h : ℕ) :
    (node l x h r).inorder = l.inorder ++ x :: r.inorder := rfl

/-- Rules 1 and 2: every stored height is right and the heights of two sons differ by at most 1. -/
def Balanced : AvlTree α → Prop
  | nil => True
  | node l _ h r => l.Balanced ∧ r.Balanced ∧ h = 1 + max l.heightof r.heightof ∧
      l.heightof ≤ r.heightof + 1 ∧ r.heightof ≤ l.heightof + 1

theorem balanced_node {l r : AvlTree α} {x : α} {h : ℕ} : (node l x h r).Balanced ↔
    l.Balanced ∧ r.Balanced ∧ h = 1 + max l.heightof r.heightof ∧
      l.heightof ≤ r.heightof + 1 ∧ r.heightof ≤ l.heightof + 1 := Iff.rfl

instance decidableBalanced : (t : AvlTree α) → Decidable t.Balanced
  | nil => inferInstanceAs (Decidable True)
  | node l _ h r =>
    have := decidableBalanced l
    have := decidableBalanced r
    inferInstanceAs (Decidable (l.Balanced ∧ r.Balanced ∧ h = 1 + max l.heightof r.heightof ∧
      l.heightof ≤ r.heightof + 1 ∧ r.heightof ≤ l.heightof + 1))

end AvlTree

open AvlTree

/-- The node of a frame with `t` as the missing son. -/
def Frame.plug : Frame α → AvlTree α → AvlTree α
  | .left x h r, t => node t x h r
  | .right l x h, t => node l x h t

/-- The whole tree around `t`. -/
def plugAll (t : AvlTree α) : List (Frame α) → AvlTree α
  | [] => t
  | f :: fs => plugAll (f.plug t) fs

/-! ### The functions -/

/-- The rotations of `avl_rebalance` where the left son is too high. -/
def rotateRight (x : α) (r : AvlTree α) : AvlTree α → Option (AvlTree α)
  | node ll lx heightleft lr =>
    if ll.heightof ≥ lr.heightof then
      some (node ll lx (1 + (1 + lr.heightof)) (node lr x (1 + lr.heightof) r))
    else
      match lr with
      | nil => none
      | node lrl lrx heightleftright lrr =>
        some (node (node ll lx heightleftright lrl) lrx heightleft (node lrr x heightleftright r))
  | nil => none

/-- The same with left and right interchanged. -/
def rotateLeft (x : α) (l : AvlTree α) : AvlTree α → Option (AvlTree α)
  | node rl rx heightright rr =>
    if rr.heightof ≥ rl.heightof then
      some (node (node l x (1 + rl.heightof) rl) rx (1 + (1 + rl.heightof)) rr)
    else
      match rl with
      | nil => none
      | node rll rlx heightrightleft rlr =>
        some (node (node l x heightrightleft rll) rlx heightright (node rlr rx heightrightleft rr))
  | nil => none

/-- One round of the loop of `avl_rebalance`; `none` is its `break`. -/
def rebalanceNode : AvlTree α → Option (AvlTree α)
  | nil => none
  | node l x h r =>
    if r.heightof + 1 < l.heightof then rotateRight x r l
    else if l.heightof + 1 < r.heightof then rotateLeft x l r
    else
      let height := max l.heightof r.heightof + 1
      if height = h then none else some (node l x height r)

/-- `avl_rebalance`, from the place `t` was put at up to the root. -/
def avlRebalance (t : AvlTree α) : List (Frame α) → AvlTree α
  | [] => t
  | f :: fs =>
    match rebalanceNode (f.plug t) with
    | none => plugAll (f.plug t) fs
    | some n => avlRebalance n fs

/-- The way down of `avl_insert`: to the left where `goLeft` says so. -/
def descend (goLeft : α → Bool) : AvlTree α → List (Frame α) → List (Frame α)
  | nil, fs => fs
  | node l x h r, fs =>
    if goLeft x then descend goLeft l (.left x h r :: fs)
    else descend goLeft r (.right l x h :: fs)

/-- The last place where the walk turned right: `*to_the_left`. -/
def toTheLeft : List (Frame α) → Option α
  | [] => none
  | .right _ x _ :: _ => some x
  | .left .. :: fs => toTheLeft fs

/-- The last place where the walk turned left: `*to_the_right`. -/
def toTheRight : List (Frame α) → Option α
  | [] => none
  | .left x _ _ :: _ => some x
  | .right .. :: fs => toTheRight fs

section Keys

variable [LinearOrder κ] (key : α → κ)

/-- The places `avl_insert` passes for the key `k`. -/
def insertPath (k : κ) (t : AvlTree α) : List (Frame α) :=
  descend (fun y => decide (k < key y)) t []

def avlInsert (x : α) (t : AvlTree α) : AvlTree α :=
  avlRebalance (node nil x 1 nil) (insertPath key (key x) t)

/-- `avl_insert_neighbours`, with `*to_the_left` and `*to_the_right`. -/
def avlInsertNeighbours (x : α) (t : AvlTree α) : AvlTree α × Option α × Option α :=
  (avlInsert key x t, toTheLeft (insertPath key (key x) t), toTheRight (insertPath key (key x) t))

/-- The inner loop of `avl_remove`: down to the rightmost node, whose left son takes its place. -/
def takeMax : AvlTree α → List (Frame α) → Option (α × AvlTree α × List (Frame α))
  | nil, _ => none
  | node l x _ nil, fs => some (x, l, fs)
  | node l x h (node rl rx rh rr), fs => takeMax (node rl rx rh rr) (.right l x h :: fs)

/-- `avl_remove` of the node that was found with the sons `l` and `r` under the places `fs`. -/
def removeAt (l : AvlTree α) (h : ℕ) (r : AvlTree α) (fs : List (Frame α)) : AvlTree α :=
  match takeMax l [] with
  | none => avlRebalance r fs
  | some (m, ml, path) => avlRebalance ml (path ++ .left m h r :: fs)

/-- The search of `avl_remove`.  The source does not test for the end of the tree (outside
`DEBUG_AVL`, where it gives up): a key that is not there leaves the tree alone. -/
def removeFrom (k : κ) : AvlTree α → List (Frame α) → AvlTree α
  | nil, fs => plugAll nil fs
  | node l x h r, fs =>
    if k = key x then removeAt l h r fs
    else if k < key x then removeFrom k l (.left x h r :: fs)
    else removeFrom k r (.right l x h :: fs)

def avlRemove (x : α) (t : AvlTree α) : AvlTree α := removeFrom key (key x) t []

end Keys

/-! ### The order of the nodes -/

def before : List (Frame α) → List α
  | [] => []
  | .left .. :: fs => before fs
  | .right l x _ :: fs => before fs ++ (l.inorder ++ [x])

def after : List (Frame α) → List α
  | [] => []
  | .left x _ r :: fs => x :: r.inorder ++ after fs
  | .right .. :: fs => after fs

theorem before_append (fs gs : List (Frame α)) : before (fs ++ gs) = before gs ++ before fs := by
  induction fs with
  | nil => simp [before]
  | cons f fs ih => cases f <;> simp [before, ih]

theorem after_append (fs gs : List (Frame α)) : after (fs ++ gs) = after fs ++ after gs := by
  induction fs with
  | nil => simp [after]
  | cons f fs ih => cases f <;> simp [after, ih]

theorem plugAll_inorder (fs : List (Frame α)) (t : AvlTree α) :
    (plugAll t fs).inorder = before fs ++ t.inorder ++ after fs := by
  induction fs generalizing t with
  | nil => simp [plugAll, before, after]
  | cons f fs ih =>
    rw [plugAll, ih]
    cases f <;> simp [Frame.plug, before, after]

variable {x : α} {l n r t : AvlTree α} {fs : List (Frame α)}

theorem rotateRight_inorder (h : rotateRight x r l = some n) : n.inorder = l.inorder ++ x :: r.inorder := by
  unfold rotateRight at h
  split at h
  · split at h
    · cases h
      simp
    · split at h
      · simp at h
      · cases h
        simp
  · simp at h

theorem rotateLeft_inorder (h : rotateLeft x l r = some n) : n.inorder = l.inorder ++ x :: r.inorder := by
  unfold rotateLeft at h
  split at h
  · split at h
    · cases h
      simp
    · split at h
      · simp at h
      · cases h
        simp
  · simp at h

theorem rebalanceNode_inorder (h : rebalanceNode t = some n) : n.inorder = t.inorder := by
  cases t with
  | nil => simp [rebalanceNode] at h
  | node l x h' r =>
    simp only [rebalanceNode] at h
    split_ifs at h
    · exact rotateRight_inorder h
    · exact rotateLeft_inorder h
    · cases h
      rfl

theorem avlRebalance_inorder (fs : List (Frame α)) (t : AvlTree α) :
    (avlRebalance t fs).inorder = before fs ++ t.inorder ++ after fs := by
  induction fs generalizing t with
  | nil => simp [avlRebalance, before, after]
  | cons f fs ih =>
    have hplug : before fs ++ (f.plug t).inorder ++ after fs =
        before (f :: fs) ++ t.inorder ++ after (f :: fs) := by
      cases f <;> simp [Frame.plug, before, after]
    rw [avlRebalance]
    cases hn : rebalanceNode (f.plug t) with
    | none =>
      rw [plugAll_inorder, hplug]
    | some n =>
      rw [ih, rebalanceNode_inorder hn, hplug]

theorem descend_sides (goLeft : α → Bool) (t : AvlTree α) (fs : List (Frame α))
    (hmono : t.inorder.Pairwise fun a b => goLeft a = true → goLeft b = true) :
    before (descend goLeft t fs) = before fs ++ t.inorder.filter (fun y => !goLeft y) ∧
      after (descend goLeft t fs) = t.inorder.filter goLeft ++ after fs := by
  induction t generalizing fs with
  | nil => simp [descend]
  | node l x h r ihl ihr =>
    rw [inorder_node, List.pairwise_append, List.pairwise_cons] at hmono
    obtain ⟨hl, ⟨hxr, hr⟩, hlr⟩ := hmono
    rw [descend]
    split
    · next hx =>
      -- everything from the node on stays on the right
      obtain ⟨hb, ha⟩ := ihl (.left x h r :: fs) hl
      have hrl : ∀ y ∈ r.inorder, goLeft y = true := fun y hy => hxr y hy hx
      have hr1 : r.inorder.filter (fun y => !goLeft y) = [] := by
        simpa using fun y hy => hrl y hy
      have hr2 : r.inorder.filter goLeft = r.inorder := List.filter_eq_self.mpr hrl
      rw [hb, ha]
      simp [before, after, hx, hr1, hr2]
    · next hx =>
      obtain ⟨hb, ha⟩ := ihr (.right l x h :: fs) hr
      have hll : ∀ y ∈ l.inorder, goLeft y = false := fun y hy => by
        by_contra hy'
        exact hx (hlr y hy x (List.mem_cons_self ..) (by simpa using hy'))
      have hl1 : l.inorder.filter goLeft = [] := by
        simpa using fun y hy => hll y hy
      have hl2 : l.inorder.filter (fun y => !goLeft y) = l.inorder :=
        List.filter_eq_self.mpr fun y hy => by simp [hll y hy]
      rw [hb, ha]
      simp [before, after, hx, hl1, hl2]

theorem toTheLeft_eq (fs : List (Frame α)) : toTheLeft fs = (before fs).getLast? := by
  induction fs with
  | nil => rfl
  | cons f fs ih => cases f <;> simp [toTheLeft, before, ih, ← List.append_assoc]

theorem toTheRight_eq (fs : List (Frame α)) : toTheRight fs = (after fs).head? := by
  induction fs with
  | nil => rfl
  | cons f fs ih => cases f <;> simp [toTheRight, after, ih]

section Keys

variable [LinearOrder κ] (key : α → κ)

variable {A B : List α}

theorem insertPath_sides {k : κ} (ht : t.inorder = A ++ B)
    (hA : ∀ a ∈ A, key a ≤ k) (hB : ∀ b ∈ B, k < key b) :
    before (insertPath key k t) = A ∧ after (insertPath key k t) = B := by
  have hA' : ∀ a ∈ A, decide (k < key a) = false := fun a ha => by simpa using hA a ha
  have hB' : ∀ b ∈ B, decide (k < key b) = true := fun b hb => by simpa using hB b hb
  have hmono : t.inorder.Pairwise fun a b => decide (k < key a) = true → decide (k < key b) = true := by
    rw [ht, List.pairwise_append]
    refine ⟨?_, ?_, fun a ha b hb _ => hB' b hb⟩
    · exact List.pairwise_of_forall_mem_list fun a ha b _ h => by rw [hA' a ha] at h; cases h
    · exact List.pairwise_of_forall_mem_list fun a _ b hb _ => hB' b hb
  obtain ⟨hb, ha⟩ := descend_sides (fun y => decide (k < key y)) t [] hmono
  have hfA : A.filter (fun y => decide (k < key y)) = [] := by simpa using hA
  have hfA' : A.filter (fun y => !decide (k < key y)) = A :=
    List.filter_eq_self.mpr fun a ha => by rw [hA' a ha]; rfl
  have hfB : B.filter (fun y => decide (k < key y)) = B := List.filter_eq_self.mpr hB'
  have hfB' : B.filter (fun y => !decide (k < key y)) = [] := by simpa using hB
  rw [ht, List.filter_append] at hb ha
  rw [hfA', hfB'] at hb
  rw [hfA, hfB] at ha
  exact ⟨by simpa [insertPath, before] using hb, by simpa [insertPath, after] using ha⟩

section

variable (ht : t.inorder = A ++ B) (hA : ∀ a ∈ A, key a ≤ key x) (hB : ∀ b ∈ B, key x < key b)
include ht hA hB

theorem avlInsert_inorder : (avlInsert key x t).inorder = A ++ x :: B := by
  obtain ⟨hb, ha⟩ := insertPath_sides key ht hA hB
  rw [avlInsert, avlRebalance_inorder, hb, ha]
  simp

theorem avlInsertNeighbours_eq : avlInsertNeighbours key x t = (avlInsert key x t, A.getLast?, B.head?) := by
  obtain ⟨hb, ha⟩ := insertPath_sides key ht hA hB
  rw [avlInsertNeighbours, toTheLeft_eq, toTheRight_eq, hb, ha]

end

theorem takeMax_inorder {path : List (Frame α)} {m : α} {ml : AvlTree α}
    (h : takeMax t fs = some (m, ml, path)) :
    after path = after fs ∧ before path ++ ml.inorder ++ [m] = before fs ++ t.inorder := by
  fun_induction takeMax t fs with
  | case1 => cases h
  | case2 l x _ fs =>
    cases h
    simp
  | case3 l x h rl rx rh rr fs ih =>
    obtain ⟨ha, hb⟩ := ih h
    refine ⟨ha, ?_⟩
    rw [hb]
    simp [before]

theorem takeMax_eq_none : takeMax t fs = none ↔ t = nil := by
  fun_induction takeMax t fs with
  | case1 | case2 => simp
  | case3 l x h rl rx rh rr fs ih => simpa using ih

theorem removeAt_inorder (l : AvlTree α) (h : ℕ) (r : AvlTree α) (fs : List (Frame α)) :
    (removeAt l h r fs).inorder = before fs ++ (l.inorder ++ r.inorder) ++ after fs := by
  unfold removeAt
  cases hl : takeMax l [] with
  | none =>
    obtain rfl := takeMax_eq_none.mp hl
    simp [avlRebalance_inorder]
  | some res =>
    obtain ⟨m, ml, path⟩ := res
    obtain ⟨ha, hb⟩ := takeMax_inorder hl
    simp only [before, after, List.nil_append] at ha hb
    rw [avlRebalance_inorder, before_append, after_append, ← hb, ha]
    simp [before, after]

variable (ht : t.inorder = A ++ x :: B) (hA : ∀ a ∈ A, key a < key x) (hB : ∀ b ∈ B, key x < key b)
include ht hA hB

theorem removeFrom_inorder (fs : List (Frame α)) :
    (removeFrom key (key x) t fs).inorder = before fs ++ (A ++ B) ++ after fs := by
  induction t generalizing fs A B with
  | nil => simp at ht
  | node l y h r ihl ihr =>
    rw [inorder_node] at ht
    -- where the node stands relative to the one searched for is decided by the keys
    rw [List.append_eq_append_iff] at ht
    rw [removeFrom]
    obtain ⟨C, hA', hC⟩ | ⟨C, hl, hC⟩ := ht
    · cases C with
      | nil =>
        obtain ⟨rfl, rfl⟩ : y = x ∧ r.inorder = B := by simpa using hC
        rw [List.append_nil] at hA'
        rw [if_pos rfl, removeAt_inorder, hA']
      | cons c C =>
        obtain ⟨rfl, hr⟩ : y = c ∧ r.inorder = C ++ x :: B := by simpa using hC
        have hy : key y < key x := hA y (by simp [hA'])
        rw [if_neg hy.ne', if_neg hy.asymm,
          ihr hr (fun a ha => hA a (by simp [hA', ha])) hB (.right l y h :: fs)]
        simp [before, after, hA']
    · cases C with
      | nil =>
        obtain ⟨rfl, rfl⟩ : x = y ∧ B = r.inorder := by simpa using hC
        rw [List.append_nil] at hl
        rw [if_pos rfl, removeAt_inorder, hl]
      | cons c C =>
        obtain ⟨rfl, hB'⟩ : x = c ∧ B = C ++ y :: r.inorder := by simpa using hC
        have hy : key x < key y := hB y (by simp [hB'])
        rw [if_neg hy.ne, if_pos hy, ihl hl hA (fun b hb => hB b (by simp [hB', hb])) (.left y h r :: fs)]
        simp [before, after, hB']

theorem avlRemove_inorder : (avlRemove key x t).inorder = A ++ B := by
  rw [avlRemove, removeFrom_inorder key ht hA hB []]
  simp [before, after]

end Keys

/-! ### The heights -/

/-- The places above a subtree of height `n` in a balanced tree. -/
def FramesOk : List (Frame α) → ℕ → Prop
  | [], _ => True
  | .left _ h r :: fs, n => r.Balanced ∧ h = 1 + max n r.heightof ∧
      n ≤ r.heightof + 1 ∧ r.heightof ≤ n + 1 ∧ FramesOk fs h
  | .right l _ h :: fs, n => l.Balanced ∧ h = 1 + max l.heightof n ∧
      l.heightof ≤ n + 1 ∧ n ≤ l.heightof + 1 ∧ FramesOk fs h

theorem plugAll_balanced (ht : t.Balanced) (hfs : FramesOk fs t.heightof) : (plugAll t fs).Balanced := by
  induction fs generalizing t with
  | nil => exact ht
  | cons f fs ih =>
    cases f with
    | left x h r =>
      obtain ⟨hr, hh, h1, h2, hfs⟩ := hfs
      exact ih (t := node t x h r) ⟨ht, hr, hh, h1, h2⟩ hfs
    | right l x h =>
      obtain ⟨hl, hh, h1, h2, hfs⟩ := hfs
      exact ih (t := node l x h t) ⟨hl, ht, hh, h1, h2⟩ hfs

theorem rotateRight_balanced (hl : l.Balanced) (hr : r.Balanced) (hh : l.heightof = r.heightof + 2) :
    ∃ n, rotateRight x r l = some n ∧ n.Balanced ∧
      (n.heightof = l.heightof ∨ n.heightof = l.heightof + 1) := by
  cases l with
  | nil => simp at hh
  | node ll lx hl' lr =>
    obtain ⟨hll, hlr, hl1, hl2, hl3⟩ := hl
    rw [heightof_node] at hh ⊢
    simp only [rotateRight]
    split
    · next hge =>
      refine ⟨_, rfl, ?_, ?_⟩
      · simp only [balanced_node, heightof_node, hll, hlr, hr, true_and]
        omega
      · rw [heightof_node]
        omega
    · next hlt =>
      cases lr with
      | nil => simp at hlt
      | node lrl lrx hlr' lrr =>
        obtain ⟨hlrl, hlrr, h1, h2, h3⟩ := hlr
        rw [heightof_node] at hl1 hl2 hl3 hlt
        refine ⟨_, rfl, ?_, .inl rfl⟩
        simp only [balanced_node, heightof_node, hll, hlrl, hlrr, hr, true_and]
        omega

theorem rotateLeft_balanced (hl : l.Balanced) (hr : r.Balanced) (hh : r.heightof = l.heightof + 2) :
    ∃ n, rotateLeft x l r = some n ∧ n.Balanced ∧
      (n.heightof = r.heightof ∨ n.heightof = r.heightof + 1) := by
  cases r with
  | nil => simp at hh
  | node rl rx hr' rr =>
    obtain ⟨hrl, hrr, hr1, hr2, hr3⟩ := hr
    rw [heightof_node] at hh ⊢
    simp only [rotateLeft]
    split
    · next hge =>
      refine ⟨_, rfl, ?_, ?_⟩
      · simp only [balanced_node, heightof_node, hl, hrl, hrr, true_and]
        omega
      · rw [heightof_node]
        omega
    · next hlt =>
      cases rl with
      | nil => simp at hlt
      | node rll rlx hrl' rlr =>
        obtain ⟨hrll, hrlr, h1, h2, h3⟩ := hrl
        rw [heightof_node] at hr1 hr2 hr3 hlt
        refine ⟨_, rfl, ?_, .inl rfl⟩
        simp only [balanced_node, heightof_node, hl, hrll, hrlr, hrr, true_and]
        omega

/-- One round on a node whose sons are balanced and at most two apart: either its stored height was
already right, or the node that takes its place is balanced. -/
theorem rebalanceNode_spec (x : α) (h : ℕ) (hl : l.Balanced) (hr : r.Balanced)
    (h1 : l.heightof ≤ r.heightof + 2) (h2 : r.heightof ≤ l.heightof + 2) :
    (rebalanceNode (node l x h r) = none ∧ (node l x h r).Balanced) ∨
    ∃ n, rebalanceNode (node l x h r) = some n ∧ n.Balanced ∧
      max l.heightof r.heightof ≤ n.heightof ∧ n.heightof ≤ max l.heightof r.heightof + 1 ∧
      (l.heightof ≤ r.heightof + 1 → r.heightof ≤ l.heightof + 1 →
        n.heightof = max l.heightof r.heightof + 1) := by
  simp only [rebalanceNode]
  split_ifs with hlr hrl hh
  · obtain ⟨n, hn, hb, hhn⟩ := rotateRight_balanced (x := x) hl hr (by omega)
    exact .inr ⟨n, hn, hb, by omega, by omega, by omega⟩
  · obtain ⟨n, hn, hb, hhn⟩ := rotateLeft_balanced (x := x) hl hr (by omega)
    exact .inr ⟨n, hn, hb, by omega, by omega, by omega⟩
  · exact .inl ⟨rfl, hl, hr, by omega, by omega, by omega⟩
  · refine .inr ⟨_, rfl, ⟨hl, hr, by omega, by omega, by omega⟩, ?_⟩
    rw [heightof_node]
    omega

theorem avlRebalance_balanced {n : ℕ} (ht : t.Balanced)
    (hfs : FramesOk fs n) (h1 : t.heightof ≤ n + 1) (h2 : n ≤ t.heightof + 1) :
    (avlRebalance t fs).Balanced := by
  induction fs generalizing t n with
  | nil => exact ht
  | cons f fs ih =>
    rw [avlRebalance]
    -- the node's stored height is the one before the change, which is what the places above expect
    obtain ⟨l, r, x, h, hplug, hl, hr, hlr, hrl, hfs', hh1, hh2, hh3⟩ : ∃ l r x h,
        f.plug t = node l x h r ∧ l.Balanced ∧ r.Balanced ∧
        l.heightof ≤ r.heightof + 2 ∧ r.heightof ≤ l.heightof + 2 ∧ FramesOk fs h ∧
        max l.heightof r.heightof ≤ h ∧ h ≤ max l.heightof r.heightof + 2 ∧
        (h = max l.heightof r.heightof + 2 → l.heightof ≤ r.heightof + 1 ∧ r.heightof ≤ l.heightof + 1) := by
      cases f with
      | left x h r =>
        obtain ⟨hr, hh, h3, h4, hfs⟩ := hfs
        exact ⟨t, r, x, h, rfl, ht, hr, by omega, by omega, hfs, by omega, by omega, by omega⟩
      | right l x h =>
        obtain ⟨hl, hh, h3, h4, hfs⟩ := hfs
        exact ⟨l, t, x, h, rfl, hl, ht, by omega, by omega, hfs, by omega, by omega, by omega⟩
    rw [hplug]
    obtain ⟨hn, hb⟩ | ⟨n, hn, hb, hn1, hn2, hn3⟩ := rebalanceNode_spec x h hl hr hlr hrl
    · rw [hn]
      exact plugAll_balanced hb hfs'
    · rw [hn]
      exact ih hb hfs' (by omega) (by omega)

theorem descend_framesOk (goLeft : α → Bool) (ht : t.Balanced)
    (hfs : FramesOk fs t.heightof) : FramesOk (descend goLeft t fs) 0 := by
  induction t generalizing fs with
  | nil => exact hfs
  | node l x h r ihl ihr =>
    obtain ⟨hl, hr, hh, h1, h2⟩ := ht
    rw [descend]
    split
    · exact ihl hl ⟨hr, hh, h1, h2, hfs⟩
    · exact ihr hr ⟨hl, hh, h1, h2, hfs⟩

theorem takeMax_framesOk {path gs : List (Frame α)} {m : α} {ml : AvlTree α}
    (h : takeMax t fs = some (m, ml, path)) (ht : t.Balanced) (hfs : FramesOk (fs ++ gs) t.heightof) :
    ml.Balanced ∧ FramesOk (path ++ gs) (ml.heightof + 1) := by
  fun_induction takeMax t fs with
  | case1 => cases h
  | case2 l x h' fs =>
    cases h
    obtain ⟨hl, -, hh, -, -⟩ := ht
    rw [heightof_node, hh] at hfs
    exact ⟨hl, by simpa [Nat.add_comm] using hfs⟩
  | case3 l x h' rl rx rh rr fs ih =>
    obtain ⟨hl, hr, hh, h1, h2⟩ := ht
    exact ih h hr ⟨hl, hh, h1, h2, hfs⟩

theorem removeAt_balanced {h : ℕ}
    (ht : (node l x h r).Balanced) (hfs : FramesOk fs h) : (removeAt l h r fs).Balanced := by
  obtain ⟨hl, hr, hh, h1, h2⟩ := ht
  unfold removeAt
  cases hm : takeMax l [] with
  | none =>
    obtain rfl := takeMax_eq_none.mp hm
    rw [heightof_nil] at hh h2
    exact avlRebalance_balanced hr hfs (by omega) (by omega)
  | some res =>
    obtain ⟨m, ml, path⟩ := res
    -- the place of the deleted node stays on the stack, with the predecessor in it
    have hfs' : FramesOk ([] ++ .left m h r :: fs) l.heightof := ⟨hr, hh, h1, h2, hfs⟩
    obtain ⟨hml, hpath⟩ := takeMax_framesOk hm hl hfs'
    exact avlRebalance_balanced hml hpath (by omega) (by omega)

section Keys

variable [LinearOrder κ] (key : α → κ)

theorem avlInsert_balanced (x : α) (ht : t.Balanced) : (avlInsert key x t).Balanced :=
  avlRebalance_balanced (n := 0) (by simp [AvlTree.Balanced]) (descend_framesOk _ ht trivial)
    (by simp) (by simp)

theorem removeFrom_balanced (k : κ) {fs : List (Frame α)} (ht : t.Balanced)
    (hfs : FramesOk fs t.heightof) : (removeFrom key k t fs).Balanced := by
  induction t generalizing fs with
  | nil => exact plugAll_balanced ht hfs
  | node l x h r ihl ihr =>
    rw [removeFrom]
    split_ifs
    · exact removeAt_balanced ht hfs
    · exact ihl ht.1 ⟨ht.2.1, ht.2.2.1, ht.2.2.2.1, ht.2.2.2.2, hfs⟩
    · exact ihr ht.2.1 ⟨ht.1, ht.2.2.1, ht.2.2.2.1, ht.2.2.2.2, hfs⟩

theorem avlRemove_balanced (x : α) (ht : t.Balanced) : (avlRemove key x t).Balanced :=
  removeFrom_balanced key (key x) ht trivial

/-- The three rules of the source, for distinct keys. -/
structure Consistent (t : AvlTree α) : Prop where
  balanced : t.Balanced
  ordered : t.inorder.Pairwise fun a b => key a < key b

theorem exists_cut {l : List α} {x : α} (hl : l.Pairwise fun a b => key a < key b)
    (hx : ∀ y ∈ l, key y ≠ key x) :
    ∃ A B, l = A ++ B ∧ (∀ a ∈ A, key a < key x) ∧ ∀ b ∈ B, key x < key b := by
  induction l with
  | nil => exact ⟨[], [], rfl, by simp, by simp⟩
  | cons y l ih =>
    obtain ⟨hy, hl⟩ := List.pairwise_cons.mp hl
    obtain hlt | hgt := lt_or_gt_of_ne (hx y List.mem_cons_self)
    · obtain ⟨A, B, rfl, hA, hB⟩ := ih hl fun z hz => hx z (List.mem_cons_of_mem y hz)
      exact ⟨y :: A, B, rfl, by simpa [hlt] using hA, hB⟩
    · exact ⟨[], y :: l, rfl, by simp, by simpa [hgt] using fun z hz => hgt.trans (hy z hz)⟩

/-- **The AVL code keeps the tree.** A node with a new key is inserted between its reported neighbours, a node of the tree is
removed, and the rules hold again. -/
theorem consistent_calls (h : Consistent key t) :
    (∀ x, (∀ y ∈ t.inorder, key y ≠ key x) → ∃ A B, t.inorder = A ++ B ∧
      (avlInsert key x t).inorder = A ++ x :: B ∧ Consistent key (avlInsert key x t) ∧
      avlInsertNeighbours key x t = (avlInsert key x t, A.getLast?, B.head?)) ∧
    ∀ x A B, t.inorder = A ++ x :: B →
      (avlRemove key x t).inorder = A ++ B ∧ Consistent key (avlRemove key x t) := by
  refine ⟨fun x hx => ?_, fun x A B hAB => ?_⟩
  · obtain ⟨A, B, hAB, hA, hB⟩ := exists_cut key h.ordered hx
    have hle : ∀ a ∈ A, key a ≤ key x := fun a ha => (hA a ha).le
    have hin := avlInsert_inorder key hAB hle hB
    refine ⟨A, B, hAB, hin, ⟨avlInsert_balanced key x h.balanced, ?_⟩, avlInsertNeighbours_eq key hAB hle hB⟩
    have hord := h.ordered
    rw [hAB, List.pairwise_append] at hord
    rw [hin, List.pairwise_append, List.pairwise_cons]
    refine ⟨hord.1, ⟨hB, hord.2.1⟩, fun a ha b hb => ?_⟩
    obtain rfl | hb := List.mem_cons.mp hb
    · exact hA a ha
    · exact hord.2.2 a ha b hb
  · have hord := h.ordered
    rw [hAB, List.pairwise_append, List.pairwise_cons] at hord
    obtain ⟨hA, ⟨hxB, hB⟩, hcross⟩ := hord
    have hin := avlRemove_inorder key hAB (fun a ha => hcross a ha x List.mem_cons_self) hxB
    refine ⟨hin, avlRemove_balanced key x h.balanced, ?_⟩
    rw [hin, List.pairwise_append]
    exact ⟨hA, hB, fun a ha b hb => hcross a ha b (List.mem_cons_of_mem x hb)⟩

/-- The tree of four levels with the fewest nodes. -/
def sparse : AvlTree ℕ :=
  node (node (node nil 1 1 nil) 2 3 (node nil 3 2 (node nil 4 1 nil))) 6 4 (node nil 8 2 (node nil 9 1 nil))

theorem consistent_sparse : Consistent id sparse := ⟨by decide, by decide⟩

/-- Inserting 5 turns the nodes 3 and 4, removing 8 turns twice at the root. -/
theorem consistent_calls_sparse : Consistent id sparse ∧
    (∃ A B, sparse.inorder = A ++ B ∧ avlInsertNeighbours id 5 sparse = (avlInsert id 5 sparse, A.getLast?, B.head?)) ∧
    avlInsert id 5 sparse = node (node (node nil 1 1 nil) 2 3 (node (node nil 3 1 nil) 4 2 (node nil 5 1 nil))) 6 4
      (node nil 8 2 (node nil 9 1 nil)) ∧
    Consistent id (avlRemove id 8 sparse) ∧
    avlRemove id 8 sparse = node (node (node nil 1 1 nil) 2 2 nil) 3 3 (node (node nil 4 1 nil) 6 2 (node nil 9 1 nil)) := by
  obtain ⟨hinsert, hremove⟩ := consistent_calls id consistent_sparse
  obtain ⟨A, B, hAB, -, -, hneighbours⟩ := hinsert 5 (by decide)
  exact ⟨consistent_sparse, ⟨A, B, hAB, hneighbours⟩, by decide, (hremove 8 [1, 2, 3, 4, 6] [9] rfl).2, by decide⟩

/-! ### The stack -/

/-- `avl_maxheight`, the size of the stacks of `avl_insert` and `avl_remove`. -/
def avlMaxheight : ℕ := 41

theorem fib_le_length (ht : t.Balanced) : Nat.fib (t.heightof + 2) ≤ t.inorder.length + 1 := by
  induction t with
  | nil => exact le_rfl
  | node l x h r ihl ihr =>
    obtain ⟨hl, hr, rfl, hlr, hrl⟩ := ht
    have h1 := ihl hl
    have h2 := ihr hr
    -- the higher son, and one that is lower by one at most
    have hfib : ∀ m, Nat.fib (1 + m + 2) = Nat.fib (m + 1) + Nat.fib (m + 2) := fun m => by
      rw [Nat.add_comm 1 m, Nat.fib_add_two]
    rw [heightof_node, inorder_node, List.length_append, List.length_cons]
    obtain hle | hle := le_total l.heightof r.heightof
    · have h3 : Nat.fib (r.heightof + 1) ≤ Nat.fib (l.heightof + 2) := Nat.fib_mono (by omega)
      rw [max_eq_right hle, hfib]
      omega
    · have h3 : Nat.fib (l.heightof + 1) ≤ Nat.fib (r.heightof + 2) := Nat.fib_mono (by omega)
      rw [max_eq_left hle, hfib]
      omega

theorem length_descend_le (goLeft : α → Bool) (fs : List (Frame α)) (ht : t.Balanced) :
    (descend goLeft t fs).length ≤ fs.length + t.heightof := by
  induction t generalizing fs with
  | nil => exact le_rfl
  | node l x h r ihl ihr =>
    obtain ⟨hl, hr, rfl, -, -⟩ := ht
    have h1 := ihl (.left x (1 + max l.heightof r.heightof) r :: fs) hl
    have h2 := ihr (.right l x (1 + max l.heightof r.heightof) :: fs) hr
    rw [List.length_cons] at h1 h2
    rw [descend, heightof_node]
    split <;> omega

theorem length_takeMax_lt {path : List (Frame α)} (h : takeMax t fs = some (x, l, path)) (ht : t.Balanced) :
    path.length < fs.length + t.heightof := by
  fun_induction takeMax t fs with
  | case1 => cases h
  | case2 l x h' fs =>
    cases h
    obtain ⟨-, -, rfl, -, -⟩ := ht
    rw [heightof_node]
    omega
  | case3 l x h' rl rx rh rr fs ih =>
    obtain ⟨-, hr, rfl, -, -⟩ := ht
    have hlt := ih h hr
    rw [List.length_cons, heightof_node] at hlt
    simp only [heightof_node]
    omega

/-- The slots of the stack that `avl_remove` writes: those of its two loops, and the slot behind the node for the left son
of the node that replaces it. -/
def removeDepth (k : κ) : AvlTree α → ℕ
  | nil => 0
  | node l x _ r =>
    if k = key x then 1 + (takeMax l []).elim 0 fun res => max 1 res.2.2.length
    else 1 + if k < key x then removeDepth k l else removeDepth k r

theorem removeDepth_le (k : κ) (ht : t.Balanced) : removeDepth key k t ≤ t.heightof := by
  induction t with
  | nil => exact le_rfl
  | node l x h r ihl ihr =>
    obtain ⟨hl, hr, rfl, -, -⟩ := ht
    have h1 := ihl hl
    have h2 := ihr hr
    rw [removeDepth, heightof_node]
    split_ifs
    · cases hm : takeMax l [] with
      | none => exact Nat.le_add_right ..
      | some res =>
        obtain ⟨m, ml, path⟩ := res
        have hlt := length_takeMax_lt hm hl
        rw [List.length_nil] at hlt
        change 1 + max 1 path.length ≤ _
        omega
    · omega
    · omega

/-- **The stack suffices.**  In a tree of at most as many areas as there are pages in an address space, neither `avl_insert`
nor `avl_remove` writes behind its stack. -/
theorem stack_suffices (h : Consistent key t) (hn : t.inorder.length ≤ 2 ^ 19) (k : κ) :
    (insertPath key k t).length ≤ avlMaxheight ∧ removeDepth key k t ≤ avlMaxheight := by
  have hheight : t.heightof ≤ avlMaxheight := by
    by_contra hlt
    have hfib : Nat.fib 44 ≤ Nat.fib (t.heightof + 2) := Nat.fib_mono (by unfold avlMaxheight at hlt; omega)
    have hle := hfib.trans (fib_le_length h.balanced)
    rw [show Nat.fib 44 = 701408733 by decide +kernel] at hle
    omega
  refine ⟨?_, (removeDepth_le key k h.balanced).trans hheight⟩
  have hle := length_descend_le (fun x => decide (k < key x)) [] h.balanced
  rw [List.length_nil, Nat.zero_add] at hle
  exact hle.trans hheight

/-- The root is replaced by the node 4, three levels below it. -/
theorem stack_suffices_sparse : Consistent id sparse ∧ removeDepth id 6 sparse = 3 ∧ removeDepth id 6 sparse ≤ avlMaxheight :=
  ⟨consistent_sparse, by decide, (stack_suffices id consistent_sparse (by decide) 6).2⟩

end Keys

end I370Linux.MmapAvl
