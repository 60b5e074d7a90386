import I370Linux.Runs

/-! # The reassembly of datagrams

`net/ipv4/ip_fragment.c`: the table `ipq_hash` of the datagrams of which fragments have arrived, `ip_defrag`,
which puts a fragment into the list of its datagram and glues the list when it is complete, `ip_expire`, and
`ip_evictor`, which frees queues when `ip_frag_mem` is too large.  All of them run in bottom halves, one at
a time.

`ip_frag_mem` is a number without bounds here: it counts storage that is allocated, of which there are less
than 2 ^ 31 bytes. -/

namespace I370Linux.IpFragment

open Runs

abbrev Byte := BitVec 8

/-- The `id`, the addresses and the protocol of a datagram. -/
structure Key where
  id : ℕ
  saddr : ℕ
  daddr : ℕ
  protocol : ℕ
deriving DecidableEq

def ipqhashfn (k : Key) : Fin 64 := Fin.ofNat 64 (k.id >>> 1 ^^^ k.saddr ^^^ k.daddr ^^^ k.protocol)

/-- A fragment as it arrives.  `offset` and `ihl` are in bytes; `data` are the bytes behind the header. -/
structure Packet where
  key : Key
  offset : ℕ
  mf : Bool
  totLen : ℕ
  ihl : ℕ
  header : ℤ → Byte
  data : ℤ → Byte
  truesize : ℕ

/-- `struct ipfrag`, with what is read of its `skb`; `ptr` is an index into the data. -/
structure Frag where
  offset : ℤ
  endOff : ℤ
  len : ℤ
  truesize : ℕ
  data : ℤ → Byte
  ptr : ℤ

/-- `struct ipq`; `timer` says that its timer is pending. -/
structure Ipq where
  key : Key
  iph : ℤ → Byte
  fragments : List Frag
  len : ℤ
  ihlen : ℕ
  timer : Bool

/-- The table, with the buckets as lists, and `ip_frag_mem`. -/
structure World where
  hash : Fin 64 → List Ipq
  mem : ℤ

/-- What is charged for a fragment: `sizeof(struct ipfrag)` and its `skb`. -/
def Frag.charge (f : Frag) : ℤ := 28 + f.truesize

def charges (l : List Frag) : ℤ := (l.map Frag.charge).sum

/-- What is charged for a queue: `sizeof(struct ipq)`, the header and the fragments. -/
def Ipq.charge (q : Ipq) : ℤ := 48 + (64 + 8) + charges q.fragments

/-! ### The list of a datagram -/

/-- A fragment without its first `i` bytes. -/
def Frag.cut (f : Frag) (i : ℤ) : Frag :=
  { f with len := f.len - i, offset := f.offset + i, ptr := f.ptr + i }

/-- The loop over the succeeding fragments. `next` are the fragments from the pointer `next` on that the loop has passed,
`gone` those before that pointer which it has passed and kept; the number is what was freed. -/
def trimLoop (e : ℤ) (gone next : List Frag) (freed : ℤ) : List Frag → List Frag × List Frag × ℤ
  | [] => (gone, next, freed)
  | tmp :: tfp =>
    if tmp.offset ≥ e then (gone, next ++ tmp :: tfp, freed)
    else
      let cut := tmp.cut (e - (next.head?.getD tmp).offset)
      if cut.len ≤ 0 then trimLoop e (gone ++ next) [] (freed + tmp.charge) tfp
      else trimLoop e gone (next ++ [cut]) freed tfp

def before (l : List Frag) (offset : ℤ) : List Frag := l.takeWhile fun f => f.offset < offset

def Packet.endOff (p : Packet) : ℤ := p.offset + p.totLen - p.ihl

def overlap (l : List Frag) (p : Packet) : ℤ :=
  match (before l p.offset).getLast? with
  | some prev => if p.offset < prev.endOff then prev.endOff - p.offset else 0
  | none => 0

def Packet.frag (p : Packet) (i : ℤ) : Frag :=
  ⟨p.offset + i, p.endOff, p.endOff - (p.offset + i), p.truesize, p.data, i⟩

/-- The list with a new fragment, and what was freed.  If `ip_frag_create` fails the list stays as the loop has
left it. -/
def insert (l : List Frag) (p : Packet) (alloc : Bool) : List Frag × ℤ :=
  let r := trimLoop p.endOff [] [] 0 (l.dropWhile fun f => f.offset < p.offset)
  if alloc then (before l p.offset ++ p.frag (overlap l p) :: r.2.1, r.2.2)
  else (before l p.offset ++ r.1 ++ r.2.1, r.2.2)

/-- The loop of `ip_done`. -/
def connects : ℤ → List Frag → Bool
  | _, [] => true
  | offset, fp :: l => !(fp.offset > offset) && connects fp.endOff l

def ipDone (q : Ipq) : Bool := q.len ≠ 0 && connects 0 q.fragments

/-- The new `skb`: the bytes of its buffer that were written, and the ranges that were. -/
structure Buf where
  bytes : ℤ → Option Byte
  writes : List (ℤ × ℤ)

def Buf.memcpy (b : Buf) (at_ n : ℤ) (src : ℤ → Byte) : Buf :=
  ⟨fun x => if at_ ≤ x ∧ x < at_ + n then some (src (x - at_)) else b.bytes x, (at_, n) :: b.writes⟩

/-- The loop of `ip_glue`, which can find the list invalid.  The length of the `skb` is unsigned, and so is the
comparison with it. -/
def glueLoop (ihlen len : ℤ) : List Frag → ℤ → Buf → Option (ℤ × Buf)
  | [], count, b => some (count, b)
  | fp :: l, count, b =>
    if fp.len < 0 ∨ (count + fp.len) % 2 ^ 32 > len % 2 ^ 32 then none
    else glueLoop ihlen len l (count + fp.len) (b.memcpy (ihlen + fp.offset) fp.len fun i => fp.data (fp.ptr + i))

/-- `ip_glue`: the field `tot_len` and the buffer.  `dev_alloc_skb` adds 16 to the length, and does not give storage
for a length that is then negative. -/
def ipGlue (q : Ipq) (alloc : Bool) : Option (ℤ × Buf) :=
  if q.ihlen + q.len > 65535 ∨ q.ihlen + q.len + 16 < 0 ∨ alloc = false then none
  else (glueLoop q.ihlen (q.ihlen + q.len) q.fragments q.ihlen
    ((⟨fun _ => none, []⟩ : Buf).memcpy 0 q.ihlen q.iph)).map fun r => (r.1 % 65536, r.2)

/-! ### The calls -/

structure Alloc where
  queue : Bool
  header : Bool
  frag : Bool
  glue : Bool

/-- What `ip_defrag` returns: nothing, the packet itself, or the datagram glued from a queue. -/
inductive Out where
  | null
  | same
  | glued (q : Ipq) (totLen : ℤ) (b : Buf)

/-- The header of a first fragment is the one to remember. -/
def Ipq.remember (q : Ipq) (p : Packet) : Ipq :=
  if p.offset = 0 then { q with ihlen := p.ihl, iph := p.header } else q

/-- The queue with a fragment; the last one gives the length of the datagram. -/
def Ipq.add (q : Ipq) (p : Packet) (alloc : Bool) : Ipq :=
  { q with len := if p.mf then q.len else p.endOff, fragments := (insert q.fragments p alloc).1 }

/-- `ip_defrag` for the queue of the fragment: what it returns, what becomes of the queue, and the change of
`ip_frag_mem`. -/
def receive (q : Ipq) (p : Packet) (a : Alloc) : Out × Option Ipq × ℤ :=
  if p.offset = 0 ∧ p.mf = false then (.same, none, -q.charge)
  else if p.totLen + p.offset > 65535 then (.null, some { q.remember p with timer := true }, 0)
  else
    let freed := (insert (q.remember p).fragments p a.frag).2
    let q := (q.remember p).add p a.frag
    if a.frag = false then (.null, some { q with timer := true }, -freed)
    else if ipDone q then
      (match ipGlue q a.glue with
        | some g => .glued q g.1 g.2
        | none => .null, none, (p.frag 0).charge - freed - q.charge)
    else (.null, some { q with timer := true }, (p.frag 0).charge - freed)

/-- The queue with the key `k` becomes `r`, or is freed. -/
def replace (k : Key) (r : Option Ipq) : List Ipq → List Ipq
  | [] => []
  | q :: l => if q.key = k then r.toList ++ l else q :: replace k r l

def ipCreate (p : Packet) : Ipq := ⟨p.key, p.header, [], 0, p.ihl, false⟩

namespace World

def setBucket (w : World) (i : Fin 64) (l : List Ipq) (mem : ℤ) : World :=
  ⟨Function.update w.hash i l, w.mem + mem⟩

/-- One turn of `ip_evictor` over the buckets: whether it returns, whether it has freed a queue. -/
def evictPass (low : ℤ) : List (Fin 64) → World → Bool → Bool × Bool × World
  | [], w, progress => (false, progress, w)
  | i :: l, w, progress =>
    if w.mem ≤ low then (true, progress, w)
    else
      match (w.hash i).getLast? with
      | none => evictPass low l w progress
      | some qp => evictPass low l (w.setBucket i (w.hash i).dropLast (-qp.charge)) true

/-- `ip_evictor`; it is `none` if it does not return within the fuel, and `some none` if it panics. -/
def ipEvictor (low : ℤ) : ℕ → World → Option (Option World)
  | 0, _ => none
  | fuel + 1, w =>
    let r := evictPass low (List.finRange 64) w false
    if r.1 then some (some r.2.2)
    else if r.2.1 then ipEvictor low fuel r.2.2
    else some none

def ipFind (w : World) (k : Key) : Option Ipq := (w.hash (ipqhashfn k)).find? fun q => q.key = k

/-- `ip_defrag` behind the eviction. -/
def ipDefrag (w : World) (p : Packet) (a : Alloc) : Out × World :=
  let i := ipqhashfn p.key
  match w.ipFind p.key with
  | some qp =>
    let r := receive { qp with timer := false } p a
    (r.1, w.setBucket i (replace p.key r.2.1 (w.hash i)) r.2.2)
  | none =>
    if p.offset = 0 ∧ p.mf = false then (.same, w)
    else if a.queue = false ∨ a.header = false then (.null, w)
    else
      let r := receive (ipCreate p) p a
      (r.1, w.setBucket i (r.2.1.toList ++ w.hash i) ((ipCreate p).charge + r.2.2))

end World

inductive Op where
  /-- A fragment arrives; the numbers are the two thresholds. -/
  | defrag (p : Packet) (a : Alloc) (high low : ℤ)
  | expire (k : Key)
  | evict (low : ℤ)

/-- The world in which `ip_defrag` goes on after it has tested `ip_frag_mem`. -/
def World.enter (w : World) (high low : ℤ) (fuel : ℕ) : Option World :=
  if w.mem > high then (w.ipEvictor low fuel).join else some w

/-- A step; a negative threshold is left out. -/
def step (w : World) (x : Op × ℕ) : Option World :=
  match x.1 with
  | .defrag p a high low => if 0 ≤ low then (w.enter high low x.2).map fun w => (w.ipDefrag p a).2 else none
  | .expire k =>
    match w.ipFind k with
    | some q => some (w.setBucket (ipqhashfn k) (replace k none (w.hash (ipqhashfn k))) (-q.charge))
    | none => none
  | .evict low => if 0 ≤ low then (w.ipEvictor low x.2).join else none

def boot : World := ⟨fun _ => [], 0⟩

end I370Linux.IpFragment
