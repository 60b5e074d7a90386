import Mathlib

/-! # The numbers of the devices found at boot

The model of `i370_find_devices` and `i370_configure_device` of `arch/i370/io/device.c`: the loop
over the subchannels, the search of the control unit in `s390_map`, and the minor drawn from the row
of `s390_devices` it leads to.  What the channel subsystem answers (the valid bit and the device
number of a subchannel, the outcome of Sense ID and of Read Device Characteristics) is a parameter.

Two rows can carry one major.  The console and the raw terminals share 227 and draw from disjoint
ranges of minors; the OSA and the CTCA row share 122 and both start at 0, so a configuration that has
both kinds of devices numbers two of them alike (`numbered_iff`).

Left out are the names of the units (`devName` of the raw terminals fills its array without a
terminator), the volume labels, and the enabling of the subchannel. -/

namespace I370Linux.DeviceNumbers

open Function List

abbrev T3990 : ℕ := 0x3990
abbrev T3880 : ℕ := 0x3880
abbrev TFBLK : ℕ := 0x3370
abbrev T3274 : ℕ := 0x3274
abbrev T3210 : ℕ := 0x3210
abbrev T3215 : ℕ := 0x3215
abbrev T3480 : ℕ := 0x3480
abbrev T3590 : ℕ := 0x3590
abbrev T3172 : ℕ := 0x3088
abbrev MOSAD : ℕ := 0xe0
abbrev MCTCA : ℕ := 0x66
abbrev MHERC : ℕ := 0x08
abbrev nRawTerm : ℕ := 32
abbrev rawMinor : ℕ := 128
abbrev ERR_NOT_READY : ℕ := 1000

/-- The rows of `s390_devices`, in their order; `cons` is `I_CONS`. -/
inductive Row
  | eckd | ckd | fba | graf | cons | tape | tss | osa | ctca | raw3215
deriving DecidableEq, Repr

instance : Fintype Row where
  elems := {.eckd, .ckd, .fba, .graf, .cons, .tape, .tss, .osa, .ctca, .raw3215}
  complete := fun row => by cases row <;> decide

inductive DrvType
  | chrdev | blkdev
deriving DecidableEq, Repr

/-- A row of `s390_devices`; `curMinor` is its initial value. -/
structure S390dev where
  major : ℕ
  curMinor : ℕ
  maxMinor : ℕ
  drvType : DrvType
  isc : ℕ
deriving DecidableEq, Repr

def s390Devices : Row → S390dev
  | .eckd => ⟨60, 0, 255, .blkdev, 7⟩
  | .ckd => ⟨61, 0, 255, .blkdev, 6⟩
  | .fba => ⟨62, 0, 255, .blkdev, 6⟩
  | .graf => ⟨63, 0, 255, .chrdev, 1⟩
  | .cons => ⟨227, 1, 2, .chrdev, 1⟩
  | .tape => ⟨120, 0, 255, .chrdev, 2⟩
  | .tss => ⟨121, 0, 255, .blkdev, 5⟩
  | .osa => ⟨122, 0, 255, .blkdev, 4⟩
  | .ctca => ⟨122, 0, 255, .blkdev, 3⟩
  | .raw3215 => ⟨227, rawMinor, rawMinor + nRawTerm - 1, .chrdev, 1⟩

/-- A row of `s390_map`; the model 0 stands for all models. -/
structure S390map where
  cuid : ℕ
  model : ℕ
  row : Row

/-- `s390_map` without its end marker. -/
def s390Map : List S390map :=
  [⟨T3990, 0, .eckd⟩, ⟨T3880, 0, .ckd⟩, ⟨TFBLK, 0, .fba⟩, ⟨T3274, 0, .graf⟩, ⟨T3480, 0, .tape⟩,
    ⟨T3590, 0, .tss⟩, ⟨T3172, MOSAD, .osa⟩, ⟨T3172, MCTCA, .ctca⟩, ⟨T3172, MHERC, .ctca⟩,
    ⟨T3210, 0, .raw3215⟩, ⟨T3215, 0, .raw3215⟩]

def rowOf (cuid model : ℕ) : Option Row :=
  (s390Map.find? fun m => m.cuid = cuid && (m.model = 0 || m.model = model)).map S390map.row

/-- What the channel subsystem says about one subchannel: `rc`, `idcuid` and `idcumdl` come from
Sense ID, `rdc` tells whether the device characteristics could be read. -/
structure Subchannel where
  dval : Bool
  devno : ℕ
  rc : ℕ
  idcuid : ℕ
  idcumdl : ℕ
  rdc : Bool
deriving DecidableEq, Repr

/-- A unit block; `row` and `cuid` record what it was configured from. -/
structure Unitblk where
  unitdev : ℕ
  unitmajor : ℕ
  unitminor : ℕ
  unittype : Option DrvType
  unitisc : ℕ
  ready : Bool
  row : Option Row
  cuid : Option ℕ
deriving DecidableEq, Repr

/-- The unit blocks found so far, in the order of the array at `unit_base`, with the tables that
point into it. -/
structure Config where
  curMinor : Row → ℕ
  units : List Unitblk
  untRaw : ℕ → Option ℕ
  untCons : Option ℕ
  untCon3215 : Option ℕ
  untCon3270 : Option ℕ

namespace Config

def initial : Config where
  curMinor := fun row => (s390Devices row).curMinor
  units := []
  untRaw := fun _ => none
  untCons := none
  untCon3215 := none
  untCon3270 := none

def push (c : Config) (u : Unitblk) : Config := { c with units := c.units ++ [u] }

end Config

/-- A unit block with the fields that the row of the driver table gives it. -/
def unitFrom (devno : ℕ) (row : Row) (minor : ℕ) (ready : Bool) (cuid : Option ℕ) : Unitblk where
  unitdev := devno
  unitmajor := (s390Devices row).major
  unitminor := minor
  unittype := some (s390Devices row).drvType
  unitisc := (s390Devices row).isc
  ready := ready
  row := some row
  cuid := cuid

def blank (devno : ℕ) : Unitblk := ⟨devno, 0, 0, none, 0, false, none, none⟩

/-- The row that `i370_configure_device` takes: one is found and its minors are not used up. -/
def openRow (c : Config) (s : Subchannel) : Option Row :=
  (rowOf s.idcuid s.idcumdl).filter fun row => c.curMinor row < (s390Devices row).maxMinor

def configureDevice (c : Config) (s : Subchannel) : Config :=
  match openRow c s with
  | none => c.push (blank s.devno)
  | some row =>
    let minor := c.curMinor row
    let here := c.units.length
    let c := if s.idcuid = T3210 ∨ s.idcuid = T3215 then
        { c with untRaw := update c.untRaw (minor - rawMinor) (some here) }
      else c
    let c := { c with curMinor := update c.curMinor row (minor + 1) }
    -- the first 3270 becomes the console if there is no other
    let c := if s.idcuid = T3274 ∧ c.untCon3270 = none then
        { c with untCon3270 := some here, untCons := c.untCons.or (some here) }
      else c
    c.push (unitFrom s.devno row minor s.rdc (some s.idcuid))

def Subchannel.console (cpuid : ℕ) (s : Subchannel) : Bool := s.devno = 0x0009 && cpuid ≠ 0

/-- One turn of the main loop of `i370_find_devices`; `cpuid` is `CPUID[0]`. -/
def findTurn (cpuid : ℕ) (c : Config) (s : Subchannel) : Config :=
  if s.dval then
    if s.console cpuid then
      let here := c.units.length
      { c with untCons := some here, untCon3215 := some here }.push
        (unitFrom s.devno .cons (c.curMinor .cons) true none)
    else if s.rc = 0 ∨ s.rc = ERR_NOT_READY then configureDevice c s
    else c.push (blank s.devno)
  else c

def findDevices (cpuid : ℕ) (subs : List Subchannel) : Config :=
  subs.foldl (findTurn cpuid) Config.initial

/-! ### The property -/

def Distinct (c : Config) : Prop :=
  c.units.Pairwise fun u v => u.unitmajor ≠ 0 → v.unitmajor ≠ 0 →
    (u.unitmajor, u.unitminor) ≠ (v.unitmajor, v.unitminor)

/-- The numbers of a unit are those of its row, in the range of minors of the row. -/
def Unitblk.InRow (u : Unitblk) (row : Row) : Prop :=
  u.row = some row ∧ u.unitmajor = (s390Devices row).major ∧
    (s390Devices row).curMinor ≤ u.unitminor ∧ u.unitminor ≤ (s390Devices row).maxMinor

/-- `unt_raw` leads from its minor to each raw terminal. -/
def RawTable (c : Config) : Prop :=
  ∀ n u, c.units[n]? = some u → (u.cuid = some T3210 ∨ u.cuid = some T3215) →
    rawMinor ≤ u.unitminor ∧ u.unitminor - rawMinor < nRawTerm ∧
      c.untRaw (u.unitminor - rawMinor) = some n

def Numbered (c : Config) : Prop :=
  Distinct c ∧ (∀ u ∈ c.units, u.unitmajor ≠ 0 → ∃ row, u.InRow row) ∧ RawTable c

/-- The subchannel has a device for a row. -/
def Subchannel.asks (cpuid : ℕ) (s : Subchannel) (row : Row) : Bool :=
  s.dval && !s.console cpuid && (s.rc = 0 || s.rc = ERR_NOT_READY) &&
    rowOf s.idcuid s.idcumdl = some row

/-! ### The tables -/

theorem rows_meet : ∀ row row' : Row, row ≠ row' →
    (s390Devices row).major = (s390Devices row').major →
    (s390Devices row).curMinor ≤ (s390Devices row').maxMinor →
    (s390Devices row').curMinor ≤ (s390Devices row).maxMinor →
    row = .osa ∧ row' = .ctca ∨ row = .ctca ∧ row' = .osa := by
  decide

theorem major_ne_zero : ∀ row : Row, (s390Devices row).major ≠ 0 := by decide

theorem first_lt_max : ∀ row : Row, (s390Devices row).curMinor < (s390Devices row).maxMinor := by
  decide

variable {cpuid cuid model : ℕ} {done : List Subchannel} {c : Config} {s : Subchannel}

theorem rowOf_ne_cons : rowOf cuid model ≠ some .cons := by
  intro h
  obtain ⟨m, hm, hrow⟩ := Option.map_eq_some_iff.mp h
  have hall : ∀ m ∈ s390Map, m.row ≠ .cons := by decide
  exact hall m (mem_of_find?_eq_some hm) hrow

theorem rowOf_raw (h : cuid = T3210 ∨ cuid = T3215) : rowOf cuid model = some .raw3215 := by
  obtain rfl | rfl := h <;> simp [rowOf, s390Map]

/-! ### The loop -/

/-- What holds after the subchannels `done`.  Every configured unit has a minor that its row has given
out; the first minor of a row that was asked for is in use. -/
structure Inv (cpuid : ℕ) (done : List Subchannel) (c : Config) : Prop where
  cur : ∀ row, (s390Devices row).curMinor ≤ c.curMinor row ∧
    c.curMinor row ≤ (s390Devices row).maxMinor
  consMinor : c.curMinor .cons = (s390Devices .cons).curMinor
  units : ∀ u ∈ c.units, u.unitmajor ≠ 0 → ∃ row, u.InRow row ∧
    (row ≠ .cons → u.unitminor < c.curMinor row)
  pair : c.units.Pairwise fun u v => u.unitmajor ≠ 0 → v.unitmajor ≠ 0 → u.row = v.row →
    u.unitminor ≠ v.unitminor
  console : ∀ u ∈ c.units, u.row = some .cons → ∃ s ∈ done, s.dval = true ∧ s.devno = 0x0009
  asked : ∀ row, row ≠ .cons →
    ((∃ s ∈ done, s.asks cpuid row = true) ↔ (s390Devices row).curMinor < c.curMinor row)
  first : ∀ row, row ≠ .cons → (s390Devices row).curMinor < c.curMinor row →
    ∃ u ∈ c.units, u.InRow row ∧ u.unitminor = (s390Devices row).curMinor
  rawRow : ∀ u ∈ c.units, (u.cuid = some T3210 ∨ u.cuid = some T3215) →
    u.InRow .raw3215 ∧ u.unitminor < c.curMinor .raw3215
  rawTable : RawTable c

namespace Inv

theorem initial (cpuid : ℕ) : Inv cpuid [] Config.initial := by
  refine ⟨fun row => ⟨le_rfl, (first_lt_max row).le⟩, rfl, ?_, List.Pairwise.nil, ?_, ?_, ?_, ?_, ?_⟩
  · intro u hu
    cases hu
  · intro u hu
    cases hu
  · intro row _
    simp [Config.initial]
  · intro row _ hlt
    exact absurd hlt (lt_irrefl _)
  · intro u hu
    cases hu
  · intro n u hu
    simp [Config.initial] at hu

variable {u : Unitblk} {row : Row} {c₁ : Config}

theorem asked_append (h : Inv cpuid done c) (hs : ∀ row, row ≠ .cons →
      ((s390Devices row).curMinor < c₁.curMinor row ↔
        (s390Devices row).curMinor < c.curMinor row ∨ s.asks cpuid row = true)) :
    ∀ row, row ≠ .cons → ((∃ s' ∈ done ++ [s], s'.asks cpuid row = true) ↔
      (s390Devices row).curMinor < c₁.curMinor row) := by
  intro row hrow
  rw [hs row hrow, ← h.asked row hrow]
  simp only [mem_append, mem_singleton, or_and_right, exists_or, exists_eq_left]

theorem console_append (h : Inv cpuid done c) :
    ∀ u ∈ c.units, u.row = some .cons → ∃ s' ∈ done ++ [s], s'.dval = true ∧ s'.devno = 0x0009 := by
  intro u hu hrow
  obtain ⟨s', hs', hcons⟩ := h.console u hu hrow
  exact ⟨s', mem_append_left _ hs', hcons⟩

theorem skip (h : Inv cpuid done c)
    (hs : ∀ row, s.asks cpuid row = true → (s390Devices row).curMinor < c.curMinor row) :
    Inv cpuid (done ++ [s]) c :=
  { h with
    console := h.console_append
    asked := h.asked_append fun row _ => ⟨.inl, (·.elim id (hs row))⟩ }

theorem rawTable_push (h : RawTable c) (hu : (u.cuid = some T3210 ∨ u.cuid = some T3215) →
      rawMinor ≤ u.unitminor ∧ u.unitminor - rawMinor < nRawTerm ∧
        c.untRaw (u.unitminor - rawMinor) = some c.units.length) : RawTable (c.push u) := by
  intro n v hv hraw
  simp only [Config.push] at hv ⊢
  obtain hlt | heq | hgt := Nat.lt_trichotomy n c.units.length
  · rw [List.getElem?_append_left hlt] at hv
    exact h n v hv hraw
  · subst heq
    rw [List.getElem?_append_right le_rfl, Nat.sub_self, List.getElem?_cons_zero, Option.some.injEq] at hv
    subst hv
    exact hu hraw
  · rw [List.getElem?_eq_none (by simp; omega)] at hv
    cases hv

section

variable (h : Inv cpuid done c)
include h

theorem pushed (hunits : c₁.units = c.units)
    (hcur : ∀ row, c.curMinor row ≤ c₁.curMinor row ∧ c₁.curMinor row ≤ (s390Devices row).maxMinor)
    (hconsMinor : c₁.curMinor .cons = c.curMinor .cons)
    (hu : u.unitmajor ≠ 0 → ∃ row, (u.InRow row ∧ (row ≠ .cons → u.unitminor < c₁.curMinor row)) ∧
      ∀ v ∈ c.units, v.unitmajor ≠ 0 → v.row = some row → v.unitminor ≠ u.unitminor)
    (hconsole : u.row = some .cons → s.dval = true ∧ s.devno = 0x0009)
    (hasked : ∀ row, row ≠ .cons → ((s390Devices row).curMinor < c₁.curMinor row ↔
      (s390Devices row).curMinor < c.curMinor row ∨ s.asks cpuid row = true))
    (hfirst : ∀ row, s.asks cpuid row = true → (s390Devices row).curMinor < c.curMinor row ∨
      u.InRow row ∧ u.unitminor = (s390Devices row).curMinor)
    (hraw : u.cuid = some T3210 ∨ u.cuid = some T3215 → u.InRow .raw3215 ∧ u.unitminor < c₁.curMinor .raw3215)
    (htable : RawTable (c₁.push u)) : Inv cpuid (done ++ [s]) (c₁.push u) := by
  have hmem : ∀ v, v ∈ (c₁.push u).units ↔ v ∈ c.units ∨ v = u := by
    intro v
    simp only [Config.push, hunits, mem_append, mem_singleton]
  have hall {p : Unitblk → Prop} (hp : ∀ v ∈ c.units, p v) (hpu : p u) : ∀ v ∈ (c₁.push u).units, p v := by
    intro v hv
    obtain hold | rfl := (hmem v).mp hv
    · exact hp v hold
    · exact hpu
  refine ⟨fun row => ⟨(h.cur row).1.trans (hcur row).1, (hcur row).2⟩, hconsMinor.trans h.consMinor,
    hall (fun v hv hne => ?_) fun hne => ?_, ?_, hall h.console_append fun hc => ⟨s, by simp, hconsole hc⟩,
    h.asked_append hasked, fun row hrow hlt => ?_, hall (fun v hv hr => ?_) hraw, htable⟩
  · obtain ⟨row, hin, hlt⟩ := h.units v hv hne
    exact ⟨row, hin, fun hc => (hlt hc).trans_le (hcur row).1⟩
  · obtain ⟨row, hin, -⟩ := hu hne
    exact ⟨row, hin⟩
  · simp only [Config.push, hunits]
    refine pairwise_append.mpr ⟨h.pair, pairwise_singleton _ _, ?_⟩
    intro v hv w hw hvne hwne hvw
    rw [mem_singleton.mp hw] at hwne hvw ⊢
    obtain ⟨row, ⟨hin, -⟩, hne⟩ := hu hwne
    exact hne v hv hvne (hvw.trans hin.1)
  · obtain hold | ⟨hin, heq⟩ := ((hasked row hrow).mp hlt).elim .inl (hfirst row)
    · obtain ⟨v, hv, hfirst⟩ := h.first row hrow hold
      exact ⟨v, (hmem v).mpr (.inl hv), hfirst⟩
    · exact ⟨u, (hmem u).mpr (.inr rfl), hin, heq⟩
  · obtain ⟨hin, hlt⟩ := h.rawRow v hv hr
    exact ⟨hin, hlt.trans_le (hcur _).1⟩

theorem blank (hs : ∀ row, s.asks cpuid row = true → (s390Devices row).curMinor < c.curMinor row) :
    Inv cpuid (done ++ [s]) (c.push (blank s.devno)) := by
  refine h.pushed rfl (fun row => ⟨le_rfl, (h.cur row).2⟩) rfl (fun hne => absurd rfl hne)
    (fun hrow => absurd hrow (Option.some_ne_none _).symm) (fun row _ => ⟨.inl, (·.elim id (hs row))⟩)
    (fun row hrow => .inl (hs row hrow)) ?_ (rawTable_push h.rawTable ?_)
  · rintro (hc | hc) <;> cases hc
  · rintro (hc | hc) <;> cases hc

theorem configured (hasks : s.asks cpuid row = true) (hopen : c.curMinor row < (s390Devices row).maxMinor)
    (hcur : c₁.curMinor = update c.curMinor row (c.curMinor row + 1)) (hunits : c₁.units = c.units)
    (hraw : c₁.untRaw = if s.idcuid = T3210 ∨ s.idcuid = T3215 then
      update c.untRaw (c.curMinor row - rawMinor) (some c.units.length) else c.untRaw) :
    Inv cpuid (done ++ [s]) (c₁.push (unitFrom s.devno row (c.curMinor row) s.rdc (some s.idcuid))) := by
  set u := unitFrom s.devno row (c.curMinor row) s.rdc (some s.idcuid) with hudef
  have hasks' : ∀ row', s.asks cpuid row' = true → rowOf s.idcuid s.idcumdl = some row' := by
    intro row' h'
    simp only [Subchannel.asks, Bool.and_eq_true, decide_eq_true_eq] at h'
    exact h'.2
  have hrowof := hasks' row hasks
  have hrow : row ≠ .cons := by
    rintro rfl
    exact rowOf_ne_cons hrowof
  have hself : c₁.curMinor row = c.curMinor row + 1 := by
    rw [hcur, update_self]
  have hother : ∀ row', row' ≠ row → c₁.curMinor row' = c.curMinor row' := by
    intro row' hne
    rw [hcur, update_of_ne hne]
  have hin : u.InRow row := ⟨rfl, rfl, (h.cur row).1, hopen.le⟩
  have hlt : u.unitminor < c₁.curMinor row := hself ▸ Nat.lt_succ_self _
  have hrawrow : u.cuid = some T3210 ∨ u.cuid = some T3215 → row = .raw3215 := by
    intro hr
    exact Option.some.inj (hrowof.symm.trans (rowOf_raw (by simpa [hudef, unitFrom] using hr)))
  refine h.pushed hunits (fun row' => ?_) (hother .cons hrow.symm)
    (fun _ => ⟨row, ⟨hin, fun _ => hlt⟩, fun v hv hne hvr => ?_⟩) (fun hc => absurd (Option.some.inj hc) hrow)
    (fun row' _ => ?_) (fun row' h' => ?_) (fun hr => ?_) (rawTable_push (fun n v hv hr => ?_) fun hr => ?_)
  · obtain rfl | hne := eq_or_ne row' row
    · rw [hself]
      exact ⟨Nat.le_succ _, hopen⟩
    · rw [hother row' hne]
      exact ⟨le_rfl, (h.cur row').2⟩
  · -- the numbers that a row has given out are below its current minor
    obtain ⟨row', hin', hlt'⟩ := h.units v hv hne
    obtain rfl : row' = row := Option.some.inj (hin'.1.symm.trans hvr)
    exact (hlt' hrow).ne
  · obtain rfl | hne := eq_or_ne row' row
    · exact iff_of_true (hin.2.2.1.trans_lt hlt) (.inr hasks)
    · rw [hother row' hne]
      exact ⟨.inl, (·.resolve_right fun h' => hne (Option.some.inj ((hasks' row' h').symm.trans hrowof)))⟩
  · obtain rfl : row' = row := Option.some.inj ((hasks' row' h').symm.trans hrowof)
    exact (Nat.lt_or_eq_of_le (h.cur row').1).imp_right fun heq => ⟨hin, heq.symm⟩
  · exact hrawrow hr ▸ ⟨hin, hlt⟩
  · rw [hunits] at hv
    obtain ⟨hge, hlt, htab⟩ := h.rawTable n v hv hr
    refine ⟨hge, hlt, ?_⟩
    rw [hraw]
    split_ifs with hnew
    · -- an older terminal has a smaller minor
      have hold := (h.rawRow v (mem_of_getElem? hv) hr).2
      rw [← hrawrow (by simpa [hudef, unitFrom] using hnew)] at hold
      rw [update_of_ne (by omega)]
      exact htab
    · exact htab
  · have hnew : s.idcuid = T3210 ∨ s.idcuid = T3215 := by simpa [hudef, unitFrom] using hr
    have hr' := hrawrow hr
    subst hr'
    have hge := (h.cur .raw3215).1
    rw [hunits, hraw, if_pos hnew]
    simp only [s390Devices] at hge hopen
    refine ⟨hge, ?_, update_self ..⟩
    change c.curMinor .raw3215 - rawMinor < nRawTerm
    omega

theorem consoleUnit (hs : s.dval = true ∧ s.devno = 0x0009)
    (hnone : ∀ s' ∈ done, ¬ (s'.dval = true ∧ s'.devno = 0x0009)) (hcons : s.console cpuid = true)
    (hcur : c₁.curMinor = c.curMinor) (hunits : c₁.units = c.units) (hraw : c₁.untRaw = c.untRaw) :
    Inv cpuid (done ++ [s]) (c₁.push (unitFrom s.devno .cons (c.curMinor .cons) true none)) := by
  have hasks : ∀ row, s.asks cpuid row ≠ true := by
    intro row hrow
    simp [Subchannel.asks, hcons] at hrow
  refine h.pushed hunits (fun row => ?_) (congrFun hcur _)
    (fun _ => ⟨.cons, ⟨⟨rfl, rfl, h.cur .cons⟩, fun hc => absurd rfl hc⟩, fun v hv _ hvr => ?_⟩) (fun _ => hs)
    (fun row _ => ?_) (fun row hrow => absurd hrow (hasks row)) ?_ (rawTable_push (fun n v hv hr => ?_) ?_)
  · rw [hcur]
    exact ⟨le_rfl, (h.cur row).2⟩
  · obtain ⟨s', hs', hnine⟩ := h.console v hv hvr
    exact absurd hnine (hnone s' hs')
  · rw [hcur]
    exact ⟨.inl, (·.resolve_right (hasks row))⟩
  · rintro (hr | hr) <;> cases hr
  · rw [hunits] at hv
    rw [hraw]
    exact h.rawTable n v hv hr
  · rintro (hr | hr) <;> cases hr

end

end Inv

/-- A valid subchannel with the device number 0009. -/
def Subchannel.nine (s : Subchannel) : Bool := s.dval && s.devno = 0x0009

open Subchannel (nine asks)

theorem Inv.configureDevice (h : Inv cpuid done c) (hdval : s.dval = true) (hcons : s.console cpuid = false)
    (hrc : s.rc = 0 ∨ s.rc = ERR_NOT_READY) : Inv cpuid (done ++ [s]) (configureDevice c s) := by
  have hasks : ∀ row, s.asks cpuid row = true ↔ rowOf s.idcuid s.idcumdl = some row := by
    intro row
    simp [asks, hdval, hcons, hrc]
  unfold DeviceNumbers.configureDevice
  cases hopen : openRow c s with
  | none =>
    refine h.blank fun row hrow => ?_
    rw [hasks row] at hrow
    rw [openRow, hrow, Option.filter_eq_none_iff] at hopen
    -- the minors of the row are used up, so some were given out
    have hfull := hopen row rfl
    rw [decide_eq_true_eq, Nat.not_lt] at hfull
    exact (first_lt_max row).trans_le hfull
  | some row =>
    rw [openRow, Option.filter_eq_some_iff, decide_eq_true_eq] at hopen
    apply h.configured ((hasks row).mpr hopen.1) hopen.2
    · split_ifs <;> rfl
    · split_ifs <;> rfl
    · split_ifs <;> rfl

theorem Inv.turn (h : Inv cpuid done c) (honce : (done ++ [s]).countP nine ≤ 1) :
    Inv cpuid (done ++ [s]) (findTurn cpuid c s) := by
  unfold findTurn
  by_cases hdval : s.dval = true
  · rw [if_pos hdval]
    cases hcons : s.console cpuid with
    | true =>
      rw [if_pos rfl]
      have hnine : s.dval = true ∧ s.devno = 0x0009 := by
        simp only [Subchannel.console, Bool.and_eq_true, decide_eq_true_eq] at hcons
        exact ⟨hdval, hcons.1⟩
      refine h.consoleUnit hnine (fun s' hs' hnine' => ?_) hcons rfl rfl rfl
      have hpos : 0 < done.countP nine :=
        countP_pos_iff.mpr ⟨s', hs', by simpa [nine] using hnine'⟩
      have hlast : nine s = true := by simpa [nine] using hnine
      rw [countP_append, countP_singleton, if_pos hlast] at honce
      omega
    | false =>
      rw [if_neg Bool.false_ne_true]
      by_cases hrc : s.rc = 0 ∨ s.rc = ERR_NOT_READY
      · rw [if_pos hrc]
        exact h.configureDevice hdval hcons hrc
      · rw [if_neg hrc]
        refine h.blank fun row hrow => ?_
        simp only [asks, Bool.and_eq_true, Bool.or_eq_true, decide_eq_true_eq] at hrow
        exact absurd hrow.1.2 hrc
  · rw [if_neg hdval]
    refine h.skip fun row hrow => ?_
    simp only [asks, Bool.and_eq_true] at hrow
    exact absurd hrow.1.1.1 hdval

theorem Inv.run : ∀ {subs done : List Subchannel} {c : Config}, Inv cpuid done c →
    (done ++ subs).countP nine ≤ 1 →
    Inv cpuid (done ++ subs) (subs.foldl (findTurn cpuid) c)
  | [], done, c, h, _ => by
    rw [append_nil]
    exact h
  | s :: subs, done, c, h, honce => by
    rw [append_cons] at honce ⊢
    refine Inv.run (h.turn (le_trans ?_ honce)) honce
    exact (sublist_append_left _ _).countP_le

theorem inv_findDevices {subs : List Subchannel}
    (honce : subs.countP nine ≤ 1) : Inv cpuid subs (findDevices cpuid subs) :=
  (Inv.initial cpuid).run honce

/-- Units with numbers of different rows have different numbers, unless one is in the OSA row and
the other in the CTCA row. -/
theorem Unitblk.InRow.ne {u v : Unitblk} {row row' : Row} (hu : u.InRow row) (hv : v.InRow row')
    (hne : row ≠ row')
    (hpair : ¬ (row = .osa ∧ row' = .ctca ∨ row = .ctca ∧ row' = .osa)) :
    (u.unitmajor, u.unitminor) ≠ (v.unitmajor, v.unitminor) := by
  intro heq
  obtain ⟨hmajor, hminor⟩ := Prod.mk.inj heq
  obtain ⟨-, humaj, hulo, huhi⟩ := hu
  obtain ⟨-, hvmaj, hvlo, hvhi⟩ := hv
  exact hpair (rows_meet row row' hne (by rw [← humaj, hmajor, hvmaj]) (by omega) (by omega))

/-- **The numbers of the devices.** With at most one device 0009: the units with a major have distinct numbers in the ranges
of their rows, and `unt_raw` leads to every raw terminal, exactly when there is not both an OSA and a channel-to-channel
adapter. -/
theorem numbered_iff (cpuid : ℕ) (subs : List Subchannel) (honce : subs.countP nine ≤ 1) :
    Numbered (findDevices cpuid subs) ↔
      ¬ ((∃ s ∈ subs, s.asks cpuid .osa = true) ∧ ∃ s ∈ subs, s.asks cpuid .ctca = true) := by
  have h : Inv cpuid subs (findDevices cpuid subs) := inv_findDevices honce
  have hosa := h.asked .osa (by decide)
  have hctca := h.asked .ctca (by decide)
  constructor
  · rintro ⟨hdistinct, -, -⟩ ⟨hasosa, hasctca⟩
    -- the first minor of both rows is in use
    obtain ⟨u, hu, huin, humin⟩ := h.first .osa (by decide) (hosa.mp hasosa)
    obtain ⟨v, hv, hvin, hvmin⟩ := h.first .ctca (by decide) (hctca.mp hasctca)
    have hne : u ≠ v := by
      rintro rfl
      cases huin.1.symm.trans hvin.1
    have hsymm : Std.Symm fun u v : Unitblk => u.unitmajor ≠ 0 → v.unitmajor ≠ 0 →
        (u.unitmajor, u.unitminor) ≠ (v.unitmajor, v.unitminor) :=
      ⟨fun u v huv hv hu heq => huv hu hv heq.symm⟩
    refine hdistinct.forall hu hv hne ?_ ?_ ?_
    · rw [huin.2.1]
      exact major_ne_zero _
    · rw [hvin.2.1]
      exact major_ne_zero _
    · rw [huin.2.1, hvin.2.1, humin, hvmin]
      rfl
  · intro hnot
    refine ⟨?_, fun u hu hne => ?_, h.rawTable⟩
    · refine h.pair.imp_of_mem ?_
      intro u v hu hv huv hune hvne
      obtain ⟨row, huin, hult⟩ := h.units u hu hune
      obtain ⟨row', hvin, hvlt⟩ := h.units v hv hvne
      obtain rfl | hrow := eq_or_ne row row'
      · intro heq
        exact huv hune hvne (huin.1.trans hvin.1.symm) (Prod.mk.inj heq).2
      refine huin.ne hvin hrow ?_
      have hused : ∀ {w : Unitblk} {r : Row}, w.InRow r → (r ≠ .cons → w.unitminor <
          (findDevices cpuid subs).curMinor r) → r ≠ .cons →
          ∃ s ∈ subs, s.asks cpuid r = true := by
        intro w r hw hlt hr
        exact (h.asked r hr).mpr (hw.2.2.1.trans_lt (hlt hr))
      rintro (⟨rfl, rfl⟩ | ⟨rfl, rfl⟩)
      · exact hnot ⟨hused huin hult (by decide), hused hvin hvlt (by decide)⟩
      · exact hnot ⟨hused hvin hvlt (by decide), hused huin hult (by decide)⟩
    · obtain ⟨row, hin, -⟩ := h.units u hu hne
      exact ⟨row, hin⟩

/-- A console, two disks, a raw terminal and an adapter. -/
theorem numbered_boot :
    Numbered (findDevices 0xff [⟨true, 9, 0, T3215, 0, true⟩, ⟨true, 0x120, 0, T3990, 0, true⟩,
      ⟨true, 0x121, 0, T3990, 0, true⟩, ⟨true, 0x20, ERR_NOT_READY, T3215, 0, false⟩,
      ⟨true, 0x600, 0, T3172, MHERC, true⟩]) :=
  (numbered_iff _ _ (by decide)).mpr (by decide)

/-- An OSA and a channel-to-channel adapter both get the numbers (122, 0). -/
theorem osa_ctca_alike :
    let c := findDevices 0xff [⟨true, 0x600, 0, T3172, MOSAD, true⟩, ⟨true, 0x700, 0, T3172, MCTCA, true⟩]
    c.units.map (fun u => (u.unitmajor, u.unitminor)) = [(122, 0), (122, 0)] ∧ ¬ Numbered c := by
  refine ⟨by decide, fun h => ?_⟩
  have hdistinct := h.1
  unfold Distinct at hdistinct
  exact absurd hdistinct (by decide)

end I370Linux.DeviceNumbers
