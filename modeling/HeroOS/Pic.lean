import HeroOS.Idt
import HeroOS.Run

/-! # The interrupt controllers

The two 8259A that `arch/x86_64/cpu/idt.c` programs, the table of its handlers, and what
`irq_common_handler` tells the controllers when a handler has returned: an end of interrupt that does
not name the interrupt, so that the controllers end the one of highest priority in service.

* `pic_serves_active`: however requests, masks, deliveries and returns of handlers are interleaved, what is in
  service is what has a handler running, as long as a spurious interrupt arrives only while nothing is. -/

namespace HeroOS

/-! ### One controller -/

/-- What a controller expects at its data port. -/
inductive Icw where
  /-- No initialisation is going on. -/
  | ready
  | icw2 (single needs4 : Bool)
  | icw3 (needs4 : Bool)
  | icw4
deriving DecidableEq, Repr

/-- An 8259A: the vector of its first line, the mask, the lines that request and those in service. -/
structure Pic where
  base : UInt8
  imr : UInt8
  irr : Finset (Fin 8)
  isr : Finset (Fin 8)
  icw : Icw

namespace Pic

/-- The mask bit of a line. -/
def masked (p : Pic) (i : Fin 8) : Bool := p.imr.toNat.testBit i

/-- An end of interrupt that names no line: the one of highest priority in service is ended. -/
def eoi (p : Pic) : Pic := if h : p.isr.Nonempty then { p with isr := p.isr.erase (p.isr.min' h) } else p

/-- A write to the command port: the first initialisation word, or an end of interrupt; other commands are not used. -/
def command (p : Pic) (val : UInt8) : Pic :=
  if val &&& 0x10 ≠ 0 then
    { p with imr := 0, irr := ∅, isr := ∅, icw := .icw2 (val &&& 0x02 != 0) (val &&& 0x01 != 0) }
  else if val &&& 0xF8 = 0x20 then p.eoi
  else p

/-- A write to the data port: the next initialisation word, or the mask. -/
def data (p : Pic) (val : UInt8) : Pic :=
  match p.icw with
  | .ready => { p with imr := val }
  | .icw2 single needs4 =>
      { p with
        base := val &&& 0xF8
        icw := if single then (if needs4 then .icw4 else .ready) else .icw3 needs4 }
  | .icw3 needs4 => { p with icw := if needs4 then .icw4 else .ready }
  | .icw4 => { p with icw := .ready }

/-- The line that would be served next, of those that request: the first one that is not masked, if no line of its
priority or a higher one is in service. -/
def next (p : Pic) (requests : Finset (Fin 8)) : Option (Fin 8) :=
  let eligible := requests.filter fun i => p.icw = .ready ∧ p.masked i = false ∧ ∀ j ∈ p.isr, i < j
  if h : eligible.Nonempty then some (eligible.min' h) else none

/-- A line is served. -/
def serve (p : Pic) (i : Fin 8) : Pic := { p with irr := p.irr.erase i, isr := insert i p.isr }

end Pic

/-! ### The two of them -/

/-- `PIC1_COMMAND` -/
def PIC1_COMMAND : ℕ := 0x20
/-- `PIC1_DATA` -/
def PIC1_DATA : ℕ := 0x21
/-- `PIC2_COMMAND` -/
def PIC2_COMMAND : ℕ := 0xA0
/-- `PIC2_DATA` -/
def PIC2_DATA : ℕ := 0xA1
/-- `PIC_EOI` -/
def PIC_EOI : UInt8 := 0x20

/-- The two controllers; the second one requests on line 2 of the first. -/
structure Pics where
  master : Pic
  slave : Pic

namespace Pics

/-- `outb`; no other port belongs to the controllers. -/
def outb (s : Pics) (port : ℕ) (val : UInt8) : Pics :=
  if port = PIC1_COMMAND then { s with master := s.master.command val }
  else if port = PIC1_DATA then { s with master := s.master.data val }
  else if port = PIC2_COMMAND then { s with slave := s.slave.command val }
  else if port = PIC2_DATA then { s with slave := s.slave.data val }
  else s

/-- `inb` from a data port: the mask. -/
def inb (s : Pics) (port : ℕ) : UInt8 := if port = PIC1_DATA then s.master.imr else s.slave.imr

/-- `io_wait` -/
def ioWait (s : Pics) : Pics := s.outb 0x80 0

/-- `pic_remap` -/
def picRemap (s : Pics) (offset1 offset2 : UInt8) : Pics :=
  let mask1 := s.inb PIC1_DATA
  let mask2 := s.inb PIC2_DATA
  let s := (s.outb PIC1_COMMAND 0x11).ioWait
  let s := (s.outb PIC2_COMMAND 0x11).ioWait
  let s := (s.outb PIC1_DATA offset1).ioWait
  let s := (s.outb PIC2_DATA offset2).ioWait
  let s := (s.outb PIC1_DATA 0x04).ioWait
  let s := (s.outb PIC2_DATA 0x02).ioWait
  let s := (s.outb PIC1_DATA 0x01).ioWait
  let s := (s.outb PIC2_DATA 0x01).ioWait
  let s := s.outb PIC1_DATA mask1
  s.outb PIC2_DATA mask2

/-- `pic_send_eoi` -/
def picSendEoi (s : Pics) (irq : UInt8) : Pics :=
  let s := if irq ≥ 8 then s.outb PIC2_COMMAND PIC_EOI else s
  s.outb PIC1_COMMAND PIC_EOI

/-- The lines of the first controller that request. -/
def requests (s : Pics) : Finset (Fin 8) :=
  if (s.slave.next s.slave.irr).isSome then insert 2 s.master.irr else s.master.irr

end Pics

/-! ### Interrupts -/

/-- What an interrupt is raised by: a line, or a request that was gone before the processor asked for its vector. -/
inductive IrqSource where
  | line (n : Fin 16)
  | spurious7
  | spurious15
deriving DecidableEq, Repr

/-- An interrupt whose handler is running. -/
structure Service where
  source : IrqSource
  vector : UInt8
deriving DecidableEq, Repr

namespace Pics

/-- The processor asks for a vector. -/
def acknowledge (s : Pics) : Option (Service × Pics) :=
  match s.master.next s.requests with
  | none => none
  | some i =>
      if i = 2 then
        match s.slave.next s.slave.irr with
        | none => none
        | some j =>
            some (⟨.line ⟨8 + j, by omega⟩, s.slave.base + UInt8.ofNat j⟩, { master := s.master.serve 2, slave := s.slave.serve j })
      else some (⟨.line ⟨i, by omega⟩, s.master.base + UInt8.ofNat i⟩, { s with master := s.master.serve i })

/-- A device requests. -/
def raise (s : Pics) (n : Fin 16) : Pics :=
  if h : n.val < 8 then { s with master := { s.master with irr := insert ⟨n, h⟩ s.master.irr } }
  else { s with slave := { s.slave with irr := insert ⟨n - 8, by omega⟩ s.slave.irr } }

/-- A device takes its request back. -/
def drop (s : Pics) (n : Fin 16) : Pics :=
  if h : n.val < 8 then { s with master := { s.master with irr := s.master.irr.erase ⟨n, h⟩ } }
  else { s with slave := { s.slave with irr := s.slave.irr.erase ⟨n - 8, by omega⟩ } }

end Pics

/-- `irq` in `irq_common_handler` -/
def irqOf (vector : UInt8) : UInt8 := vector - 0x20

/-- The controllers, the interrupts whose handlers are running, the innermost one first, and `irq_handlers`, by the
addresses of the handlers. -/
structure IrqState where
  pics : Pics
  active : List Service
  handlers : ℕ → Option ℕ

namespace IrqState

/-- `irq_register_handler` -/
def irqRegisterHandler (s : IrqState) (irq : UInt8) (handler : ℕ) : IrqState :=
  if irq.toNat < IRQ_COUNT then { s with handlers := Function.update s.handlers irq.toNat (some handler) } else s

/-- `irq_unregister_handler` -/
def irqUnregisterHandler (s : IrqState) (irq : UInt8) : IrqState :=
  if irq.toNat < IRQ_COUNT then { s with handlers := Function.update s.handlers irq.toNat none } else s

/-- The end of `irq_common_handler`. -/
def finish (s : IrqState) : Option IrqState :=
  match s.active with
  | [] => none
  | e :: rest => some { s with pics := s.pics.picSendEoi (irqOf e.vector), active := rest }

end IrqState

/-- What can happen.  No device is connected to line 2. -/
inductive IrqOp where
  | raise (n : Fin 16)
  | drop (n : Fin 16)
  | mask (port : ℕ) (val : UInt8)
  | register (irq : UInt8) (handler : ℕ)
  | unregister (irq : UInt8)
  | deliver
  | spurious7
  | spurious15
  | finish

/-- One step; `none` where it is not possible. -/
def IrqState.step (s : IrqState) : IrqOp → Option IrqState
  | .raise n => if n = 2 then none else some { s with pics := s.pics.raise n }
  | .drop n => some { s with pics := s.pics.drop n }
  | .mask port val => if port = PIC1_DATA ∨ port = PIC2_DATA then some { s with pics := s.pics.outb port val } else none
  | .register irq handler => some (s.irqRegisterHandler irq handler)
  | .unregister irq => some (s.irqUnregisterHandler irq)
  | .deliver => s.pics.acknowledge.map fun r => { s with pics := r.2, active := r.1 :: s.active }
  | .spurious7 => some { s with active := ⟨.spurious7, s.pics.master.base + 7⟩ :: s.active }
  | .spurious15 =>
      if s.pics.master.next {2} = some 2 then
        some { s with
          pics := { s.pics with master := { s.pics.master with isr := insert 2 s.pics.master.isr } }
          active := ⟨.spurious15, s.pics.slave.base + 7⟩ :: s.active }
      else none
  | .finish => s.finish

/-! ### What the accesses do -/

namespace Pic

variable {p : Pic} {i : Fin 8} {l : List (Fin 8)} {r : Finset (Fin 8)}

theorem eoi_empty (h : p.isr = ∅) : p.eoi = p := by
  unfold eoi
  rw [dif_neg (by rw [h]; simp)]

/-- The line of highest priority in service is the least one. -/
theorem eoi_cons (h : p.isr = (i :: l).toFinset) (hl : (i :: l).Pairwise (· < ·)) : p.eoi = { p with isr := l.toFinset } := by
  obtain ⟨hlt, _⟩ := List.pairwise_cons.mp hl
  have hne : p.isr.Nonempty := ⟨i, by simp [h]⟩
  have hmin : p.isr.min' hne = i := by
    apply le_antisymm
    · exact Finset.min'_le _ _ (by simp [h])
    · refine Finset.le_min' _ _ _ fun j hj => ?_
      rw [h, List.mem_toFinset, List.mem_cons] at hj
      rcases hj with rfl | hj
      · exact le_rfl
      · exact (hlt j hj).le
  have hnot : i ∉ l.toFinset := fun hi => lt_irrefl i (hlt i (List.mem_toFinset.mp hi))
  unfold eoi
  rw [dif_pos hne, hmin, h, List.toFinset_cons, Finset.erase_insert hnot]

theorem command_eoi (p : Pic) : p.command PIC_EOI = p.eoi := by
  unfold command
  rw [if_neg (by decide), if_pos (by decide)]

theorem data_ready (h : p.icw = .ready) (val : UInt8) : p.data val = { p with imr := val } := by
  unfold data
  rw [h]

/-- The line that is served next requests, and has priority over all in service. -/
theorem next_eq_some (h : p.next r = some i) : i ∈ r ∧ ∀ j ∈ p.isr, i < j := by
  unfold next at h
  dsimp only at h
  split at h
  · have hmem := Finset.min'_mem _ ‹_›
    rw [Option.some_inj.mp h, Finset.mem_filter] at hmem
    exact ⟨hmem.1, hmem.2.2.2⟩
  · cases h

end Pic

namespace Pics

variable {s : Pics} {irq : UInt8}

theorem picSendEoi_of_lt (h : irq < 8) : s.picSendEoi irq = { s with master := s.master.eoi } := by
  unfold picSendEoi
  rw [if_neg (by simpa using h)]
  show { s with master := s.master.command PIC_EOI } = _
  rw [Pic.command_eoi]

theorem picSendEoi_of_ge (h : 8 ≤ irq) : s.picSendEoi irq = { master := s.master.eoi, slave := s.slave.eoi } := by
  unfold picSendEoi
  rw [if_pos h]
  show { master := s.master.command PIC_EOI, slave := s.slave.command PIC_EOI : Pics } = _
  rw [Pic.command_eoi, Pic.command_eoi]

/-- **`pic_remap`** from any state, also in the midst of an initialisation: the vectors, nothing in service or
requested, and the masks that were there before. -/
theorem picRemap_eq (s : Pics) (offset1 offset2 : UInt8) : s.picRemap offset1 offset2 =
    { master := ⟨offset1 &&& 0xF8, s.master.imr, ∅, ∅, .ready⟩, slave := ⟨offset2 &&& 0xF8, s.slave.imr, ∅, ∅, .ready⟩ } := by
  have h1 : ∀ p : Pic, p.command 0x11 = { p with imr := 0, irr := ∅, isr := ∅, icw := .icw2 false true } := by
    intro p
    unfold Pic.command
    rw [if_pos (by decide)]
    rfl
  have hinit : ∀ (p : Pic) (a b c d : UInt8), ((((p.command 0x11).data a).data b).data c).data d = ⟨a &&& 0xF8, d, ∅, ∅, .ready⟩ := by
    intro p a b c d
    rw [h1]
    rfl
  show (⟨((((s.master.command 0x11).data offset1).data 0x04).data 0x01).data s.master.imr,
    ((((s.slave.command 0x11).data offset2).data 0x02).data 0x01).data s.slave.imr⟩ : Pics) = _
  rw [hinit, hinit]

end Pics

/-! ### What is in service -/

namespace IrqSource

/-- The line of the first controller on which an interrupt is in service. -/
def masterLine : IrqSource → Option (Fin 8)
  | .line n => if h : n.val < 8 then some ⟨n, h⟩ else some 2
  | .spurious7 => none
  | .spurious15 => some 2

/-- The line of the second one. -/
def slaveLine : IrqSource → Option (Fin 8)
  | .line n => if 8 ≤ n.val then some ⟨n - 8, by omega⟩ else none
  | _ => none

/-- The number that the handlers know it by. -/
def number : IrqSource → ℕ
  | .line n => n
  | .spurious7 => 7
  | .spurious15 => 15

/-- What is in service on the second controller is in service on line 2 of the first. -/
theorem masterLine_of_slaveLine {e : IrqSource} {j : Fin 8} (h : e.slaveLine = some j) : e.masterLine = some 2 := by
  cases e with
  | line n =>
      simp only [slaveLine] at h
      split at h
      · exact dif_neg (by omega)
      · cases h
  | spurious7 => cases h
  | spurious15 => cases h

end IrqSource

/-- The lines of the first controller in service, the innermost handler first. -/
def masterLines (l : List Service) : List (Fin 8) := l.filterMap fun e => e.source.masterLine

/-- The lines of the second one. -/
def slaveLines (l : List Service) : List (Fin 8) := l.filterMap fun e => e.source.slaveLine

theorem masterLines_some {e : Service} {i : Fin 8} (h : e.source.masterLine = some i) (rest : List Service) :
    masterLines (e :: rest) = i :: masterLines rest := List.filterMap_cons_some h

theorem masterLines_none {e : Service} (h : e.source.masterLine = none) (rest : List Service) :
    masterLines (e :: rest) = masterLines rest := List.filterMap_cons_none h

theorem slaveLines_some {e : Service} {j : Fin 8} (h : e.source.slaveLine = some j) (rest : List Service) :
    slaveLines (e :: rest) = j :: slaveLines rest := List.filterMap_cons_some h

theorem slaveLines_none {e : Service} (h : e.source.slaveLine = none) (rest : List Service) :
    slaveLines (e :: rest) = slaveLines rest := List.filterMap_cons_none h

/-- **The controllers and the handlers agree.**  What is in service is what has a handler running, and handlers are
interrupted by such of higher priority only. -/
structure Serves (s : IrqState) : Prop where
  base : s.pics.master.base = 0x20 ∧ s.pics.slave.base = 0x28
  ready : s.pics.master.icw = .ready ∧ s.pics.slave.icw = .ready
  master : s.pics.master.isr = (masterLines s.active).toFinset
  slave : s.pics.slave.isr = (slaveLines s.active).toFinset
  nested : (masterLines s.active).Pairwise (· < ·)
  number : ∀ e ∈ s.active, (irqOf e.vector).toNat = e.source.number
  handlers : ∀ i, IRQ_COUNT ≤ i → s.handlers i = none

/-- Under a spurious interrupt nothing is in service. -/
def SpuriousLast (l : List Service) : Prop :=
  ∀ e rest, e :: rest <:+ l → e.source = .spurious7 → masterLines rest = []

/-- A step in which a spurious interrupt of the first controller comes only while nothing is in service there. -/
def CalmStep (s : IrqState) (op : IrqOp) (s' : IrqState) : Prop :=
  s.step op = some s' ∧ (op = .spurious7 → s.pics.master.isr = ∅)

variable {s s' : IrqState} {op : IrqOp} {e : Service} {rest : List Service}

/-- Where line 2 is served, no handler under it belongs to the second controller. -/
theorem slaveLines_of_masterLine (h : e.source.masterLine = some 2) (hnested : (masterLines (e :: rest)).Pairwise (· < ·)) :
    slaveLines rest = [] := by
  rw [masterLines_some h, List.pairwise_cons] at hnested
  apply List.filterMap_eq_nil_iff.mpr
  intro e' he'
  cases hs : e'.source.slaveLine with
  | none => rfl
  | some j =>
      have hlt := hnested.1 2 (List.mem_filterMap.mpr ⟨e', he', IrqSource.masterLine_of_slaveLine hs⟩)
      exact absurd hlt (lt_irrefl _)

theorem nested_tail (h : (masterLines (e :: rest)).Pairwise (· < ·)) : (masterLines rest).Pairwise (· < ·) := by
  cases hm : e.source.masterLine with
  | none => rwa [masterLines_none hm] at h
  | some i =>
      rw [masterLines_some hm] at h
      exact (List.pairwise_cons.mp h).2

/-- An interrupt of the second controller has line 2 of the first, and the others have no line of the second. -/
theorem IrqSource.number_cases (e : IrqSource) : (e.number < 8 ∧ e.slaveLine = none ∧ (e = .spurious7 ∨ ∃ i, e.masterLine = some i)) ∨
    (8 ≤ e.number ∧ e.masterLine = some 2) := by
  cases e with
  | line n =>
      by_cases h : n.val < 8
      · exact .inl ⟨h, if_neg (by omega), .inr ⟨_, dif_pos h⟩⟩
      · exact .inr ⟨not_lt.mp h, dif_neg h⟩
  | spurious7 => exact .inl ⟨by decide, rfl, .inl rfl⟩
  | spurious15 => exact .inr ⟨by decide, rfl⟩

/-- **The end of a handler** ends what it served. -/
theorem Serves.finish (h : Serves s) (hactive : s.active = e :: rest) (hlast : e.source = .spurious7 → masterLines rest = []) :
    Serves { s with pics := s.pics.picSendEoi (irqOf e.vector), active := rest } := by
  have hnum := h.number e (by rw [hactive]; exact List.mem_cons_self)
  have hmem : ∀ e' ∈ rest, (irqOf e'.vector).toNat = e'.source.number := fun e' he' =>
    h.number e' (by rw [hactive]; exact List.mem_cons_of_mem _ he')
  have hnested := h.nested
  have hmaster := h.master
  have hslave := h.slave
  rw [hactive] at hnested hmaster hslave
  have hrest := nested_tail hnested
  have heoi : (s.pics.master.eoi).isr = (masterLines rest).toFinset ∧ s.pics.master.eoi.base = 0x20 ∧
      s.pics.master.eoi.icw = .ready := by
    cases hm : e.source.masterLine with
    | none =>
        have he : e.source = .spurious7 := by
          rcases e.source.number_cases with ⟨_, _, he | ⟨i, hi⟩⟩ | ⟨_, hi⟩
          · exact he
          · rw [hm] at hi
            cases hi
          · rw [hm] at hi
            cases hi
        rw [masterLines_none hm, hlast he] at hmaster
        rw [Pic.eoi_empty hmaster, hmaster, hlast he]
        exact ⟨rfl, h.base.1, h.ready.1⟩
    | some i =>
        rw [masterLines_some hm] at hmaster hnested
        rw [Pic.eoi_cons hmaster hnested]
        exact ⟨rfl, h.base.1, h.ready.1⟩
  rcases e.source.number_cases with ⟨hlt, hs, _⟩ | ⟨hge, hm⟩
  · have hirq : irqOf e.vector < 8 := UInt8.lt_iff_toNat_lt.mpr (by rw [hnum]; exact hlt)
    rw [Pics.picSendEoi_of_lt hirq]
    rw [slaveLines_none hs] at hslave
    exact ⟨⟨heoi.2.1, h.base.2⟩, ⟨heoi.2.2, h.ready.2⟩, heoi.1, hslave, hrest, hmem, h.handlers⟩
  · have hirq : 8 ≤ irqOf e.vector := UInt8.le_iff_toNat_le.mpr (by rw [hnum]; exact hge)
    have hnil := slaveLines_of_masterLine hm hnested
    have heoi2 : (s.pics.slave.eoi).isr = ∅ ∧ s.pics.slave.eoi.base = 0x28 ∧ s.pics.slave.eoi.icw = .ready := by
      cases hs : e.source.slaveLine with
      | none =>
          rw [slaveLines_none hs, hnil] at hslave
          rw [Pic.eoi_empty hslave]
          exact ⟨hslave, h.base.2, h.ready.2⟩
      | some j =>
          rw [slaveLines_some hs, hnil] at hslave
          rw [Pic.eoi_cons hslave (List.pairwise_singleton _ j)]
          exact ⟨rfl, h.base.2, h.ready.2⟩
    rw [Pics.picSendEoi_of_ge hirq]
    refine ⟨⟨heoi.2.1, heoi2.2.1⟩, ⟨heoi.2.2, heoi2.2.2⟩, heoi.1, ?_, hrest, hmem, h.handlers⟩
    rw [hnil]
    exact heoi2.1

/-- **A handler begins**: its line has priority over all that are in service. -/
theorem Serves.push {pics' : Pics} {i : Fin 8} (h : Serves s) (hm : e.source.masterLine = some i)
    (hlt : ∀ j ∈ s.pics.master.isr, i < j) (hmaster : pics'.master.isr = insert i s.pics.master.isr)
    (hslave : pics'.slave.isr = (slaveLines (e :: s.active)).toFinset)
    (hbase : pics'.master.base = s.pics.master.base ∧ pics'.slave.base = s.pics.slave.base)
    (hready : pics'.master.icw = s.pics.master.icw ∧ pics'.slave.icw = s.pics.slave.icw)
    (hnum : (irqOf e.vector).toNat = e.source.number) : Serves { s with pics := pics', active := e :: s.active } := by
  refine ⟨⟨hbase.1.trans h.base.1, hbase.2.trans h.base.2⟩, ⟨hready.1.trans h.ready.1, hready.2.trans h.ready.2⟩, ?_, hslave, ?_,
    ?_, h.handlers⟩
  · rw [masterLines_some hm, List.toFinset_cons, ← h.master]
    exact hmaster
  · rw [masterLines_some hm, List.pairwise_cons]
    refine ⟨fun j hj => hlt j ?_, h.nested⟩
    rw [h.master]
    exact List.mem_toFinset.mpr hj
  · intro e' he'
    rcases List.mem_cons.mp he' with rfl | he'
    · exact hnum
    · exact h.number e' he'

/-- What `irq_common_handler` makes of a vector. -/
theorem irqOf_master (i : Fin 8) : (irqOf (0x20 + UInt8.ofNat i)).toNat = i := by
  revert i
  decide

theorem irqOf_slave (j : Fin 8) : (irqOf (0x28 + UInt8.ofNat j)).toNat = 8 + j := by
  revert j
  decide

theorem Serves.deliver {pics' : Pics} (h : Serves s) (hack : s.pics.acknowledge = some (e, pics')) :
    Serves { s with pics := pics', active := e :: s.active } ∧ e.source ≠ .spurious7 := by
  unfold Pics.acknowledge at hack
  split at hack
  · cases hack
  · rename_i i hnext
    obtain ⟨_, hlt⟩ := Pic.next_eq_some hnext
    split at hack
    · rename_i hi
      rw [hi] at hlt
      split at hack
      · cases hack
      · rename_i j hj
        obtain ⟨rfl, rfl⟩ := Prod.mk.inj (Option.some_inj.mp hack)
        have hm : IrqSource.masterLine (.line ⟨8 + j, by omega⟩) = some 2 := dif_neg (by simp)
        have hs : IrqSource.slaveLine (.line ⟨8 + j, by omega⟩) = some j := by
          simp only [IrqSource.slaveLine]
          rw [if_pos (by simp)]
          simp
        refine ⟨h.push hm hlt rfl ?_ ⟨rfl, rfl⟩ ⟨rfl, rfl⟩ ?_, by simp⟩
        · rw [slaveLines_some hs, List.toFinset_cons, ← h.slave]
          rfl
        · show (irqOf (s.pics.slave.base + UInt8.ofNat j)).toNat = 8 + j
          rw [h.base.2]
          exact irqOf_slave j
    · obtain ⟨rfl, rfl⟩ := Prod.mk.inj (Option.some_inj.mp hack)
      have hm : IrqSource.masterLine (.line ⟨i, by omega⟩) = some i := dif_pos i.isLt
      have hs : IrqSource.slaveLine (.line ⟨i, by omega⟩) = none := if_neg (by simp)
      refine ⟨h.push hm hlt rfl ?_ ⟨rfl, rfl⟩ ⟨rfl, rfl⟩ ?_, by simp⟩
      · rw [slaveLines_none hs, ← h.slave]
      · show (irqOf (s.pics.master.base + UInt8.ofNat i)).toNat = i
        rw [h.base.1]
        exact irqOf_master i

theorem Serves.spurious7 (h : Serves s) : Serves { s with active := ⟨.spurious7, s.pics.master.base + 7⟩ :: s.active } := by
  refine ⟨h.base, h.ready, h.master, h.slave, h.nested, fun e' he' => ?_, h.handlers⟩
  rcases List.mem_cons.mp he' with rfl | he'
  · show (irqOf (s.pics.master.base + 7)).toNat = 7
    rw [h.base.1]
    decide
  · exact h.number e' he'

theorem Serves.spurious15 (h : Serves s) (hnext : s.pics.master.next {2} = some 2) :
    Serves { s with
      pics := { s.pics with master := { s.pics.master with isr := insert 2 s.pics.master.isr } }
      active := ⟨.spurious15, s.pics.slave.base + 7⟩ :: s.active } := by
  refine h.push rfl (Pic.next_eq_some hnext).2 rfl ?_ ⟨rfl, rfl⟩ ⟨rfl, rfl⟩ ?_
  · rw [slaveLines_none rfl, ← h.slave]
  · show (irqOf (s.pics.slave.base + 7)).toNat = 15
    rw [h.base.2]
    decide

/-- Requests and masks do not change what is in service. -/
theorem Serves.congr {pics' : Pics} (h : Serves s) (hm : pics'.master.base = s.pics.master.base ∧ pics'.master.icw = s.pics.master.icw ∧
    pics'.master.isr = s.pics.master.isr) (hs : pics'.slave.base = s.pics.slave.base ∧ pics'.slave.icw = s.pics.slave.icw ∧
    pics'.slave.isr = s.pics.slave.isr) : Serves { s with pics := pics' } :=
  ⟨⟨hm.1.trans h.base.1, hs.1.trans h.base.2⟩, ⟨hm.2.1.trans h.ready.1, hs.2.1.trans h.ready.2⟩, hm.2.2.trans h.master,
    hs.2.2.trans h.slave, h.nested, h.number, h.handlers⟩

theorem Serves.raise (h : Serves s) (n : Fin 16) : Serves { s with pics := s.pics.raise n } := by
  unfold Pics.raise
  split
  · exact h.congr ⟨rfl, rfl, rfl⟩ ⟨rfl, rfl, rfl⟩
  · exact h.congr ⟨rfl, rfl, rfl⟩ ⟨rfl, rfl, rfl⟩

theorem Serves.drop (h : Serves s) (n : Fin 16) : Serves { s with pics := s.pics.drop n } := by
  unfold Pics.drop
  split
  · exact h.congr ⟨rfl, rfl, rfl⟩ ⟨rfl, rfl, rfl⟩
  · exact h.congr ⟨rfl, rfl, rfl⟩ ⟨rfl, rfl, rfl⟩

theorem Serves.mask {port : ℕ} {val : UInt8} (h : Serves s) (hport : port = PIC1_DATA ∨ port = PIC2_DATA) :
    Serves { s with pics := s.pics.outb port val } := by
  rcases hport with rfl | rfl
  · have hout : s.pics.outb PIC1_DATA val = { s.pics with master := { s.pics.master with imr := val } } := by
      rw [← Pic.data_ready h.ready.1]
      rfl
    rw [hout]
    exact h.congr ⟨rfl, rfl, rfl⟩ ⟨rfl, rfl, rfl⟩
  · have hout : s.pics.outb PIC2_DATA val = { s.pics with slave := { s.pics.slave with imr := val } } := by
      rw [← Pic.data_ready h.ready.2]
      rfl
    rw [hout]
    exact h.congr ⟨rfl, rfl, rfl⟩ ⟨rfl, rfl, rfl⟩

/-- The table of handlers is not written behind its end. -/
theorem Serves.setHandler (h : Serves s) (irq : UInt8) (handler : Option ℕ) :
    Serves (if irq.toNat < IRQ_COUNT then { s with handlers := Function.update s.handlers irq.toNat handler } else s) := by
  split
  · refine ⟨h.base, h.ready, h.master, h.slave, h.nested, h.number, fun i hi => ?_⟩
    show Function.update s.handlers irq.toNat handler i = none
    rw [Function.update_of_ne (by omega)]
    exact h.handlers i hi
  · exact h

theorem SpuriousLast.push (h : SpuriousLast s.active) (hne : e.source = .spurious7 → masterLines s.active = []) :
    SpuriousLast (e :: s.active) := by
  intro e' rest' hsuffix he'
  rcases List.suffix_cons_iff.mp hsuffix with heq | hsuffix
  · obtain ⟨rfl, rfl⟩ := List.cons.inj heq
    exact hne he'
  · exact h e' rest' hsuffix he'

/-- **One step.** -/
theorem CalmStep.serves (hstep : CalmStep s op s') (h : Serves s ∧ SpuriousLast s.active) : Serves s' ∧ SpuriousLast s'.active := by
  obtain ⟨hstep, hcalm⟩ := hstep
  obtain ⟨hS, hL⟩ := h
  cases op with
  | raise n =>
      simp only [IrqState.step] at hstep
      split at hstep
      · cases hstep
      · cases hstep
        exact ⟨hS.raise n, hL⟩
  | drop n =>
      cases hstep
      exact ⟨hS.drop n, hL⟩
  | mask port val =>
      simp only [IrqState.step] at hstep
      split at hstep
      · rename_i hport
        cases hstep
        exact ⟨hS.mask hport, hL⟩
      · cases hstep
  | register irq handler =>
      cases hstep
      refine ⟨hS.setHandler irq (some handler), ?_⟩
      unfold IrqState.irqRegisterHandler
      split <;> exact hL
  | unregister irq =>
      cases hstep
      refine ⟨hS.setHandler irq none, ?_⟩
      unfold IrqState.irqUnregisterHandler
      split <;> exact hL
  | deliver =>
      obtain ⟨⟨e, pics'⟩, hack, rfl⟩ := Option.map_eq_some_iff.mp hstep
      obtain ⟨hS', hne⟩ := hS.deliver hack
      exact ⟨hS', hL.push fun he => absurd he hne⟩
  | spurious7 =>
      cases hstep
      refine ⟨hS.spurious7, hL.push fun _ => ?_⟩
      have hempty := hcalm rfl
      rwa [hS.master, List.toFinset_eq_empty_iff] at hempty
  | spurious15 =>
      simp only [IrqState.step] at hstep
      split at hstep
      · rename_i hnext
        cases hstep
        exact ⟨hS.spurious15 hnext, hL.push fun he => by cases he⟩
      · cases hstep
  | finish =>
      have hstep : s.finish = some s' := hstep
      unfold IrqState.finish at hstep
      split at hstep
      · cases hstep
      · rename_i e rest hactive
        cases hstep
        rw [hactive] at hL
        refine ⟨hS.finish hactive fun he => hL e rest (List.suffix_refl _) he, fun e' rest' hsuffix => ?_⟩
        exact hL e' rest' (hsuffix.trans (List.suffix_cons e rest))

/-- A spurious interrupt is acknowledged like any other, although nothing was put in service for it. -/
theorem spurious_finish_iff (hS : Serves s) : s.pics.picSendEoi (irqOf (s.pics.master.base + 7)) = s.pics ↔ s.pics.master.isr = ∅ := by
  have hirq : irqOf (s.pics.master.base + 7) < 8 := by
    rw [hS.base.1]
    decide
  rw [Pics.picSendEoi_of_lt hirq]
  constructor
  · intro heq
    have hmaster : s.pics.master.eoi = s.pics.master := congrArg Pics.master heq
    by_contra hne
    have hne := Finset.nonempty_iff_ne_empty.mpr hne
    have hisr := congrArg Pic.isr hmaster
    unfold Pic.eoi at hisr
    rw [dif_pos hne] at hisr
    exact Finset.erase_ne_self.mpr (Finset.min'_mem _ hne) hisr
  · intro hempty
    rw [Pic.eoi_empty hempty]

/-- `idt_init` up to `pic_remap`. -/
def IrqState.init (pics : Pics) : IrqState := ⟨pics.picRemap 0x20 0x28, [], fun _ => none⟩

theorem serves_init (pics : Pics) : Serves (IrqState.init pics) ∧ SpuriousLast (IrqState.init pics).active := by
  have hremap := pics.picRemap_eq 0x20 0x28
  unfold IrqState.init
  rw [hremap]
  have hbase : (0x20 : UInt8) &&& 0xF8 = 0x20 ∧ (0x28 : UInt8) &&& 0xF8 = 0x28 := by decide
  refine ⟨⟨hbase, ⟨rfl, rfl⟩, rfl, rfl, List.Pairwise.nil, by simp, fun _ _ => rfl⟩, fun e rest hsuffix => ?_⟩
  exact absurd (List.suffix_nil.mp hsuffix) (List.cons_ne_nil e rest)

/-- **What is in service is what has a handler running.**  From any state of the controllers, after `idt_init`:
devices request and take requests back, masks change, handlers are registered and removed, interrupts are delivered
and nested, spurious ones among them, and handlers return, in any order.  As long as a spurious interrupt of the first
controller comes only while nothing is in service there, every end of interrupt that `irq_common_handler` sends ends
the interrupt of its own handler; so the lines in service are exactly those of the handlers that run, each of which
has interrupted only such of lower priority and is called with the number of its line.  But with something in
service, the acknowledgement of a spurious interrupt ends that instead. -/
theorem pic_serves_active (pics : Pics) (ops : List IrqOp) (s : IrqState) (hrun : Run CalmStep (IrqState.init pics) ops s) :
    Serves s ∧ ∀ s₁ s₂, s.step .spurious7 = some s₁ → s₁.step .finish = some s₂ →
      (s₂.pics = s.pics ↔ s.pics.master.isr = ∅) := by
  obtain ⟨hS, _⟩ := hrun.invariant (I := fun s => Serves s ∧ SpuriousLast s.active) (fun _ _ _ h hs => hs.serves h)
    (serves_init pics)
  refine ⟨hS, fun s₁ s₂ h₁ h₂ => ?_⟩
  cases h₁
  cases h₂
  exact spurious_finish_iff hS

/-- Both controllers, with nothing masked. -/
def openPics : Pics := ⟨⟨0, 0, ∅, ∅, .ready⟩, ⟨8, 0, ∅, ∅, .ready⟩⟩

/-- The timer interrupts a handler of the second controller. -/
theorem pic_serves_active_nested : ∃ s, Run CalmStep (IrqState.init openPics) [.raise 12, .deliver, .raise 0, .deliver, .finish] s ∧
    s.active.map Service.source = [.line 12] ∧ s.pics.master.isr = (masterLines s.active).toFinset := by
  have hrun : ∃ s, Run CalmStep (IrqState.init openPics) [.raise 12, .deliver, .raise 0, .deliver, .finish] s ∧
      s.active.map Service.source = [.line 12] := by
    refine ⟨_, .cons ⟨rfl, by simp⟩ (.cons ⟨rfl, by simp⟩ (.cons ⟨rfl, by simp⟩ (.cons ⟨rfl, by simp⟩
      (.cons ⟨rfl, by simp⟩ (.nil _))))), ?_⟩
    rfl
  obtain ⟨s, hs, hactive⟩ := hrun
  exact ⟨s, hs, hactive, (pic_serves_active openPics _ s hs).1.master⟩

end HeroOS
