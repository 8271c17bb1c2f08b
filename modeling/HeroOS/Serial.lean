import HeroOS.CheckedBuffer
import HeroOS.Outcome

/-! # The serial port

`arch/x86_64/drivers/serial.c` and the 16550A that it drives.  Bytes leave the device, and others arrive,
at any time between two accesses.

* `serial_init_programs`: what `serial_init` leaves in the device, from any state of it;
* `serial_puts_stream`: a string reaches the line whole, and can be read back from it;
* `printing_keeps_all_iff`: contexts that print at the same time lose no byte exactly when there are no more of
  them than places in the transmitter;
* `printing_interleaves`: what is on the line is an interleaving of what they print. -/

namespace HeroOS

/-! ### The device -/

/-- A 16550A: its registers, the bytes in the transmitter, the bytes sent, the bytes written while the transmitter
was full, and the bytes received. -/
structure Uart where
  ier : UInt8
  lcr : UInt8
  fcr : UInt8
  mcr : UInt8
  dll : UInt8
  dlm : UInt8
  tx : List UInt8
  wire : List UInt8
  lost : List UInt8
  rx : List UInt8

/-- What the line does between two accesses: how many bytes leave, and which ones arrive. -/
structure LineEvent where
  sent : ℕ
  received : List UInt8

namespace Uart

/-- The divisor latch is accessible. -/
def dlab (u : Uart) : Bool := u.lcr &&& 0x80 != 0

/-- The places for bytes: the FIFO, or the holding register. -/
def capacity (u : Uart) : ℕ := if u.fcr &&& 1 = 0 then 1 else 16

/-- The line status register: a byte has been received, the transmitter is empty. -/
def lineStatus (u : Uart) : UInt8 := (if u.rx = [] then 0 else 0x01) ||| (if u.tx = [] then 0x60 else 0)

/-- A byte for the transmitter. -/
def transmit (u : Uart) (val : UInt8) : Uart :=
  if u.tx.length < u.capacity then { u with tx := u.tx ++ [val] } else { u with lost := u.lost ++ [val] }

/-- The FIFO control register.  Switching the FIFOs on or off clears both. -/
def fifoControl (u : Uart) (val : UInt8) : Uart :=
  let switched := val &&& 0x01 != u.fcr &&& 0x01
  let clears (bit : UInt8) : Bool := switched || (val &&& 0x01 != 0 && val &&& bit != 0)
  { u with fcr := val, rx := if clears 0x02 then [] else u.rx, tx := if clears 0x04 then [] else u.tx }

/-- A write to the register at an offset. -/
def outb (u : Uart) (off : ℕ) (val : UInt8) : Uart :=
  match off with
  | 0 => if u.dlab then { u with dll := val } else u.transmit val
  | 1 => if u.dlab then { u with dlm := val } else { u with ier := val &&& 0x0F }
  | 2 => u.fifoControl val
  | 3 => { u with lcr := val }
  | 4 => { u with mcr := val &&& 0x1F }
  | _ => u

/-- A read of the receiver or of the line status; the driver reads no other register. -/
def inb (u : Uart) (off : ℕ) : UInt8 × Uart :=
  match off with
  | 0 => if u.dlab then (u.dll, u) else (u.rx.headD 0, { u with rx := u.rx.tail })
  | 5 => (u.lineStatus, u)
  | _ => (0xFF, u)

/-- What the line does. -/
def pass (u : Uart) (e : LineEvent) : Uart :=
  { u with
    tx := u.tx.drop e.sent
    wire := u.wire ++ u.tx.take e.sent
    rx := (u.rx ++ e.received).take u.capacity }

/-- The bytes that have been accepted for the line. -/
def stream (u : Uart) : List UInt8 := u.wire ++ u.tx

end Uart

/-- The device and the number of accesses so far. -/
structure SerialLine where
  uart : Uart
  time : ℕ

namespace SerialLine

/-- `outb` -/
def outb (env : ℕ → LineEvent) (s : SerialLine) (off : ℕ) (val : UInt8) : SerialLine :=
  ⟨(s.uart.pass (env s.time)).outb off val, s.time + 1⟩

/-- `inb` -/
def inb (env : ℕ → LineEvent) (s : SerialLine) (off : ℕ) : UInt8 × SerialLine :=
  let r := (s.uart.pass (env s.time)).inb off
  (r.1, ⟨r.2, s.time + 1⟩)

/-! ### The driver -/

/-- `serial_init` -/
def serialInit (env : ℕ → LineEvent) (s : SerialLine) (baudDivisor : UInt16) : SerialLine :=
  let s := s.outb env 1 0x00
  let s := s.outb env 3 0x80
  let s := s.outb env 0 (baudDivisor &&& 0xFF).toUInt8
  let s := s.outb env 1 (baudDivisor >>> 8).toUInt8
  let s := s.outb env 3 0x03
  let s := s.outb env 2 0xC7
  let s := s.outb env 4 0x0B
  s.outb env 4 0x0F

/-- `SERIAL_BAUD_115200` -/
def SERIAL_BAUD_115200 : UInt16 := 1

/-- `serial_early_init` -/
def serialEarlyInit (env : ℕ → LineEvent) (s : SerialLine) : SerialLine := s.serialInit env SERIAL_BAUD_115200

/-- The loop `while (!serial_transmit_empty(port))`. -/
def waitTransmit (env : ℕ → LineEvent) (s : SerialLine) : ℕ → Except Halt SerialLine
  | 0 => .error .outOfFuel
  | fuel + 1 =>
      let (status, s) := s.inb env 5
      if status &&& 0x20 ≠ 0 then .ok s else waitTransmit env s fuel

/-- `serial_putc` -/
def serialPutc (env : ℕ → LineEvent) (fuel : ℕ) (s : SerialLine) (c : UInt8) : Except Halt SerialLine := do
  let s ← s.waitTransmit env fuel
  if c = 10 then do
    let s := s.outb env 0 13
    let s ← s.waitTransmit env fuel
    .ok (s.outb env 0 c)
  else .ok (s.outb env 0 c)

/-- `serial_puts` -/
def serialPuts (env : ℕ → LineEvent) (fuel : ℕ) (s : SerialLine) : List UInt8 → Except Halt SerialLine
  | [] => .ok s
  | c :: cs => do
      let s ← s.serialPutc env fuel c
      s.serialPuts env fuel cs

end SerialLine

/-! ### What accesses do -/

namespace Uart

variable {u u' : Uart} {e : LineEvent} {c : UInt8}

@[simp] theorem stream_pass (u : Uart) (e : LineEvent) : (u.pass e).stream = u.stream := by
  unfold stream pass
  simp

theorem prefix_stream (u : Uart) : u.wire <+: u.stream := List.prefix_append u.wire u.tx

/-- What the transmitter-empty bit says. -/
theorem transmit_empty_iff (u : Uart) : u.lineStatus &&& 0x20 ≠ 0 ↔ u.tx = [] := by
  unfold lineStatus
  by_cases hrx : u.rx = [] <;> by_cases htx : u.tx = [] <;> simp only [hrx, htx, if_true, if_false] <;> decide

/-- The states of the device that differ in what it has received and in how much it has sent. -/
structure Quiet (u u' : Uart) : Prop where
  stream : u'.stream = u.stream
  lost : u'.lost = u.lost
  lcr : u'.lcr = u.lcr

theorem Quiet.trans {u'' : Uart} (h : Quiet u u') (h' : Quiet u' u'') : Quiet u u'' :=
  ⟨h'.stream.trans h.stream, h'.lost.trans h.lost, h'.lcr.trans h.lcr⟩

/-- The divisor latch. -/
theorem outb_dll (h : u.dlab = true) : (u.pass e).outb 0 c = { u.pass e with dll := c } := if_pos h

theorem outb_dlm (h : u.dlab = true) : (u.pass e).outb 1 c = { u.pass e with dlm := c } := if_pos h

/-- Switching the FIFOs on and clearing both. -/
theorem fifoControl_reset (u : Uart) : u.fifoControl 0xC7 = { u with fcr := 0xC7, rx := [], tx := [] } := by
  have hon : (0xC7 : UInt8) &&& 0x01 ≠ 0 := by decide
  have hrx : (0xC7 : UInt8) &&& 0x02 ≠ 0 := by decide
  have htx : (0xC7 : UInt8) &&& 0x04 ≠ 0 := by decide
  simp [fifoControl, hon, hrx, htx]

end Uart

namespace SerialLine

variable {env : ℕ → LineEvent} {s s' : SerialLine} {c : UInt8} {fuel : ℕ}

theorem outb_uart (env : ℕ → LineEvent) (s : SerialLine) (off : ℕ) (val : UInt8) :
    (s.outb env off val).uart = (s.uart.pass (env s.time)).outb off val := rfl

theorem outb_time (env : ℕ → LineEvent) (s : SerialLine) (off : ℕ) (val : UInt8) : (s.outb env off val).time = s.time + 1 := rfl

/-! ### Initialisation -/

/-- **`serial_init`** leaves the device with the divisor, eight data bits, empty FIFOs and an unlocked transmitter,
from whatever state it is in.  No byte of the divisor reaches the line, and none is lost.  But it disables the
interrupts of the device only where these were disabled already or the divisor latch was not accessible: its first
write goes to the latch otherwise. -/
theorem serial_init_programs (env : ℕ → LineEvent) (s : SerialLine) (d : UInt16) :
    (s.serialInit env d).uart.lcr = 0x03 ∧
      (s.serialInit env d).uart.dll.toNat + 256 * (s.serialInit env d).uart.dlm.toNat = d.toNat ∧
      (s.serialInit env d).uart.dlab = false ∧ (s.serialInit env d).uart.capacity = 16 ∧ (s.serialInit env d).uart.mcr = 0x0F ∧
      (s.serialInit env d).uart.tx = [] ∧ (s.serialInit env d).uart.lost = s.uart.lost ∧
      (s.serialInit env d).uart.wire <+: s.uart.stream ∧
      ((s.serialInit env d).uart.ier = 0 ↔ s.uart.dlab = false ∨ s.uart.ier = 0) := by
  obtain ⟨u₁, hu₁⟩ : ∃ u, u = (s.uart.pass (env s.time)).outb 1 0x00 := ⟨_, rfl⟩
  obtain ⟨u₂, hu₂⟩ : ∃ u, u = (u₁.pass (env (s.time + 1))).outb 3 0x80 := ⟨_, rfl⟩
  obtain ⟨u₃, hu₃⟩ : ∃ u, u = (u₂.pass (env (s.time + 2))).outb 0 (d &&& 0xFF).toUInt8 := ⟨_, rfl⟩
  obtain ⟨u₄, hu₄⟩ : ∃ u, u = (u₃.pass (env (s.time + 3))).outb 1 (d >>> 8).toUInt8 := ⟨_, rfl⟩
  obtain ⟨u₅, hu₅⟩ : ∃ u, u = (u₄.pass (env (s.time + 4))).outb 3 0x03 := ⟨_, rfl⟩
  obtain ⟨u₆, hu₆⟩ : ∃ u, u = (u₅.pass (env (s.time + 5))).outb 2 0xC7 := ⟨_, rfl⟩
  obtain ⟨u₇, hu₇⟩ : ∃ u, u = (u₆.pass (env (s.time + 6))).outb 4 0x0B := ⟨_, rfl⟩
  obtain ⟨u₈, hu₈⟩ : ∃ u, u = (u₇.pass (env (s.time + 7))).outb 4 0x0F := ⟨_, rfl⟩
  have hend : (s.serialInit env d).uart = u₈ := by
    unfold serialInit
    simp only [outb_uart, outb_time, Nat.add_assoc, Nat.reduceAdd]
    rw [hu₈, hu₇, hu₆, hu₅, hu₄, hu₃, hu₂, hu₁]
  -- the first write goes to the register that is accessible
  have h₁ : u₁.stream = s.uart.stream ∧ u₁.lost = s.uart.lost ∧ (u₁.ier = 0 ↔ s.uart.dlab = false ∨ s.uart.ier = 0) := by
    rw [hu₁]
    unfold Uart.outb
    rw [show (s.uart.pass (env s.time)).dlab = s.uart.dlab from rfl]
    cases hdlab : s.uart.dlab
    · exact ⟨Uart.stream_pass _ _, rfl, by simp⟩
    · exact ⟨Uart.stream_pass _ _, rfl, by simp [Uart.pass]⟩
  -- the next two to the divisor latch
  have h₂ : u₂.stream = u₁.stream ∧ u₂.lost = u₁.lost ∧ u₂.ier = u₁.ier ∧ u₂.dlab = true := by
    rw [hu₂]
    exact ⟨Uart.stream_pass _ _, rfl, rfl, by show (0x80 &&& 0x80 != 0 : Bool) = true; decide⟩
  have h₃ : u₃.stream = u₂.stream ∧ u₃.lost = u₂.lost ∧ u₃.ier = u₂.ier ∧ u₃.dlab = true ∧ u₃.dll = (d &&& 0xFF).toUInt8 := by
    rw [hu₃, Uart.outb_dll h₂.2.2.2]
    exact ⟨Uart.stream_pass _ _, rfl, rfl, h₂.2.2.2, rfl⟩
  have h₄ : u₄.stream = u₃.stream ∧ u₄.lost = u₃.lost ∧ u₄.ier = u₃.ier ∧ u₄.dll = u₃.dll ∧ u₄.dlm = (d >>> 8).toUInt8 := by
    rw [hu₄, Uart.outb_dlm h₃.2.2.2.1]
    exact ⟨Uart.stream_pass _ _, rfl, rfl, rfl, rfl⟩
  have h₅ : u₅.stream = u₄.stream ∧ u₅.lost = u₄.lost ∧ u₅.ier = u₄.ier ∧ u₅.dll = u₄.dll ∧ u₅.dlm = u₄.dlm ∧ u₅.lcr = 0x03 := by
    rw [hu₅]
    exact ⟨Uart.stream_pass _ _, rfl, rfl, rfl, rfl, rfl⟩
  have h₆ : u₆.tx = [] ∧ u₆.wire <+: u₅.stream ∧ u₆.lost = u₅.lost ∧ u₆.fcr = 0xC7 := by
    rw [hu₆]
    refine ⟨?_, ?_, rfl, rfl⟩
    · exact congrArg Uart.tx (Uart.fifoControl_reset _)
    · rw [← Uart.stream_pass u₅ (env (s.time + 5))]
      exact (u₅.pass (env (s.time + 5))).prefix_stream
  have h₈ : u₈.tx = [] ∧ u₈.wire = u₆.wire := by
    rw [hu₈, hu₇]
    simp [Uart.outb, Uart.pass, h₆.1]
  have hkept : u₈.lcr = u₅.lcr ∧ u₈.dll = u₅.dll ∧ u₈.dlm = u₅.dlm ∧ u₈.ier = u₅.ier ∧ u₈.lost = u₆.lost ∧ u₈.fcr = u₆.fcr ∧
      u₈.mcr = 0x0F := by
    rw [hu₈, hu₇, hu₆]
    exact ⟨rfl, rfl, rfl, rfl, rfl, rfl, rfl⟩
  have hdivisor : (d &&& 0xFF).toUInt8.toNat + 256 * (d >>> 8).toUInt8.toNat = d.toNat := by
    have hlow : (d &&& 0xFF).toUInt8.toNat = d.toNat % 2 ^ 8 := by
      rw [UInt16.toNat_toUInt8, UInt16.toNat_and, show (0xFF : UInt16).toNat = 2 ^ 8 - 1 from rfl, Nat.and_two_pow_sub_one_eq_mod]
      omega
    have hhigh : (d >>> 8).toUInt8.toNat = d.toNat / 2 ^ 8 := by
      have hlt := d.toNat_lt
      rw [UInt16.toNat_toUInt8, UInt16.toNat_shiftRight, show (8 : UInt16).toNat % 16 = 8 from rfl, Nat.shiftRight_eq_div_pow]
      omega
    omega
  obtain ⟨hlcr, hdll, hdlm, hier, hlost, hfcr, hmcr⟩ := hkept
  rw [hend]
  refine ⟨?_, ?_, ?_, ?_, hmcr, h₈.1, ?_, ?_, ?_⟩
  · rw [hlcr, h₅.2.2.2.2.2]
  · rw [hdll, hdlm, h₅.2.2.2.1, h₅.2.2.2.2.1, h₄.2.2.2.1, h₄.2.2.2.2, h₃.2.2.2.2]
    exact hdivisor
  · unfold Uart.dlab
    rw [hlcr, h₅.2.2.2.2.2]
    rfl
  · unfold Uart.capacity
    rw [hfcr, h₆.2.2.2]
    rfl
  · rw [hlost, h₆.2.2.1, h₅.2.1, h₄.2.1, h₃.2.1, h₂.2.1, h₁.2.1]
  · rw [h₈.2, ← h₁.1, ← h₂.1, ← h₃.1, ← h₄.1, ← h₅.1]
    exact h₆.2.1
  · rw [hier, h₅.2.2.1, h₄.2.2.1, h₃.2.2.1, h₂.2.2.1]
    exact h₁.2.2

/-! ### Printing -/

/-- One turn of the loop. -/
theorem waitTransmit_succ (env : ℕ → LineEvent) (s : SerialLine) (fuel : ℕ) : s.waitTransmit env (fuel + 1) =
    if (s.uart.pass (env s.time)).tx = [] then .ok ⟨s.uart.pass (env s.time), s.time + 1⟩
    else waitTransmit env ⟨s.uart.pass (env s.time), s.time + 1⟩ fuel := by
  show (if (s.uart.pass (env s.time)).lineStatus &&& 0x20 ≠ 0 then _ else _) = _
  simp only [Uart.transmit_empty_iff]
  rfl

/-- The bytes that are sent for a string: a carriage return before each line feed. -/
def crlf : List UInt8 → List UInt8
  | [] => []
  | c :: cs => (if c = 10 then [13, 10] else [c]) ++ crlf cs

theorem dlab_congr {u u' : Uart} (h : u'.lcr = u.lcr) : u'.dlab = u.dlab := by
  unfold Uart.dlab
  rw [h]

theorem crlf_cons (c : UInt8) (cs : List UInt8) : crlf (c :: cs) = crlf [c] ++ crlf cs := by
  simp [crlf]

end SerialLine

/-! ### Printing from several contexts -/

open SerialLine

/-- Processes and interrupt handlers that print: for each the bytes that it still has to send, and whether it has seen
the transmitter empty and not sent since. -/
structure Printers (ι : Type) where
  uart : Uart
  todo : ι → List UInt8
  ready : ι → Bool

/-- What can happen: a context calls `serial_puts`, tests the transmitter, or sends a byte; or the line does something. -/
inductive PrintOp (ι : Type) where
  | start (i : ι) (str : List UInt8)
  | poll (i : ι)
  | out (i : ι)
  | line (e : LineEvent)

namespace Printers

variable {ι : Type} [DecidableEq ι]

/-- Nobody prints. -/
def idle (u : Uart) : Printers ι := ⟨u, fun _ => [], fun _ => false⟩

/-- One step; `none` where it is not possible. -/
def step (s : Printers ι) : PrintOp ι → Option (Printers ι)
  | .start i str => if s.todo i = [] then some { s with todo := Function.update s.todo i (crlf str) } else none
  | .poll i =>
      if s.ready i = false ∧ s.todo i ≠ [] then
        some { s with ready := Function.update s.ready i ((s.uart.inb 5).1 &&& 0x20 != 0), uart := (s.uart.inb 5).2 }
      else none
  | .out i =>
      match s.ready i, s.todo i with
      | true, b :: bs =>
          some ⟨s.uart.outb 0 b, Function.update s.todo i bs, Function.update s.ready i false⟩
      | _, _ => none
  | .line e => some { s with uart := s.uart.pass e }

variable {env : ℕ → LineEvent} {s : Printers ι} {l l' : SerialLine} {i : ι} {b c : UInt8} {bs : List UInt8} {fuel : ℕ}

theorem poll_eq (hr : s.ready i = false) (ht : s.todo i ≠ []) :
    s.step (.poll i) = some { s with ready := Function.update s.ready i s.uart.tx.isEmpty } := by
  have hbit : (s.uart.lineStatus &&& 0x20 != 0) = s.uart.tx.isEmpty := by
    rw [Bool.eq_iff_iff, bne_iff_ne, List.isEmpty_iff]
    exact s.uart.transmit_empty_iff
  show (if s.ready i = false ∧ s.todo i ≠ [] then _ else _) = _
  rw [if_pos ⟨hr, ht⟩, ← hbit]
  rfl

/-! #### The driver makes these steps -/

/-- The state of a context that has `bs` to send. -/
def At (s : Printers ι) (u : Uart) (i : ι) (bs : List UInt8) : Printers ι :=
  ⟨u, Function.update s.todo i bs, Function.update s.ready i false⟩

theorem wait_run (s : Printers ι) (i : ι) (h : l.waitTransmit env fuel = .ok l') (hbs : bs ≠ []) :
    ∃ ops : List (PrintOp ι), ops.foldlM step (s.At l.uart i bs) = some { s.At l'.uart i bs with ready := Function.update s.ready i true } := by
  induction fuel generalizing l with
  | zero => cases h
  | succ fuel ih =>
      rw [waitTransmit_succ] at h
      obtain ⟨u, hu⟩ : ∃ u, u = l.uart.pass (env l.time) := ⟨_, rfl⟩
      rw [← hu] at h
      have hturn : [PrintOp.line (env l.time), .poll i].foldlM step (s.At l.uart i bs) =
          some { s.At u i bs with ready := Function.update s.ready i u.tx.isEmpty } := by
        have hpoll := poll_eq (s := s.At u i bs) (i := i) (by simp [At]) (by simpa [At] using hbs)
        simp only [List.foldlM_cons, List.foldlM_nil, Option.bind_eq_bind]
        show ((some (s.At (l.uart.pass (env l.time)) i bs)).bind _) = _
        rw [← hu, Option.bind_some, hpoll]
        simp [At]
      split_ifs at h with hempty
      · cases h
        refine ⟨_, hturn.trans ?_⟩
        simp [hempty]
      · obtain ⟨ops, hops⟩ := ih h
        refine ⟨[.line (env l.time), .poll i] ++ ops, ?_⟩
        have hbusy : u.tx.isEmpty = false := by simp [hempty]
        rw [List.foldlM_append, hturn, hbusy]
        exact hops

theorem out_run (l : SerialLine) : [PrintOp.line (env l.time), .out i].foldlM step
    { s.At l.uart i (b :: bs) with ready := Function.update s.ready i true } = some (s.At (l.outb env 0 b).uart i bs) := by
  simp [step, At, outb_uart]

/-- A byte behind its wait. -/
theorem send_run (s : Printers ι) (i : ι) (b : UInt8) (bs : List UInt8) (h : l.waitTransmit env fuel = .ok l') :
    ∃ ops : List (PrintOp ι), ops.foldlM step (s.At l.uart i (b :: bs)) = some (s.At (l'.outb env 0 b).uart i bs) := by
  obtain ⟨ops, hops⟩ := wait_run s i h (List.cons_ne_nil b bs)
  refine ⟨ops ++ [.line (env l'.time), .out i], ?_⟩
  rw [List.foldlM_append, hops]
  exact out_run l'

theorem putc_run (s : Printers ι) (i : ι) (bs : List UInt8) (h : l.serialPutc env fuel c = .ok l') :
    ∃ ops : List (PrintOp ι), ops.foldlM step (s.At l.uart i (crlf [c] ++ bs)) = some (s.At l'.uart i bs) := by
  obtain ⟨l₁, h₁, h⟩ := bind_eq_ok.mp h
  by_cases hc : c = 10
  · rw [if_pos hc] at h
    obtain ⟨l₂, h₂, h⟩ := bind_eq_ok.mp h
    cases h
    obtain ⟨ops₁, hops₁⟩ := send_run s i 13 (10 :: bs) h₁
    obtain ⟨ops₂, hops₂⟩ := send_run s i c bs h₂
    refine ⟨ops₁ ++ ops₂, ?_⟩
    rw [hc] at hops₂ ⊢
    rw [List.foldlM_append]
    show (ops₁.foldlM step (s.At l.uart i (13 :: 10 :: bs))).bind _ = _
    rw [hops₁]
    exact hops₂
  · rw [if_neg hc] at h
    cases h
    have hcrlf : crlf [c] ++ bs = c :: bs := by simp [crlf, hc]
    rw [hcrlf]
    exact send_run s i c bs h₁

/-- **The driver refines the steps**: a call of `serial_puts` that returns is a run of the context that makes it. -/
theorem serialPuts_run (s : Printers ι) (hidle : s.todo i = [] ∧ s.ready i = false) (hu : l.uart = s.uart)
    {str : List UInt8} (h : l.serialPuts env fuel str = .ok l') :
    ∃ ops : List (PrintOp ι), (PrintOp.start i str :: ops).foldlM step s = some { s with uart := l'.uart } := by
  have hputs : ∃ ops : List (PrintOp ι), ops.foldlM step (s.At l.uart i (crlf str)) = some (s.At l'.uart i []) := by
    clear hu
    induction str generalizing l with
    | nil =>
        cases h
        exact ⟨[], rfl⟩
    | cons c cs ih =>
        obtain ⟨l₁, h₁, h⟩ := bind_eq_ok.mp h
        obtain ⟨ops₁, hops₁⟩ := putc_run s i (crlf cs) h₁
        obtain ⟨ops₂, hops₂⟩ := ih h
        refine ⟨ops₁ ++ ops₂, ?_⟩
        rw [crlf_cons, List.foldlM_append, hops₁]
        exact hops₂
  obtain ⟨ops, hops⟩ := hputs
  have hready : Function.update s.ready i false = s.ready := by
    rw [← hidle.2, Function.update_eq_self]
  have htodo : Function.update s.todo i [] = s.todo := by
    rw [← hidle.1, Function.update_eq_self]
  refine ⟨ops, ?_⟩
  unfold At at hops
  rw [hready, htodo, hu] at hops
  have hstart : s.step (.start i str) = some { s with todo := Function.update s.todo i (crlf str) } := if_pos hidle.1
  rw [List.foldlM_cons, hstart]
  exact hops

/-! #### The transmitter is a checked buffer -/

/-- The same step for the buffer. -/
def buffered : PrintOp ι → CheckedBuffer.Op ι UInt8
  | .start i str => .start i (crlf str)
  | .poll i => .check i
  | .out i => .write i
  | .line e => .take e.sent

/-- A step of the buffer, where the items are bytes that are sent as they are. -/
def direct : CheckedBuffer.Op ι UInt8 → PrintOp ι
  | .start i xs => .start i xs
  | .check i => .poll i
  | .write i => .out i
  | .take n => .line ⟨n, []⟩

/-- The state of a buffer, from which one knows who has sent which byte since the state `u`. -/
structure Tags (u : Uart) (s : Printers ι) (a : CheckedBuffer ι UInt8) : Prop where
  tx : s.uart.tx = a.buf.map Prod.snd
  wire : s.uart.wire = u.wire ++ a.taken.map Prod.snd
  lost : s.uart.lost = u.lost ++ a.lost.map Prod.snd
  todo : s.todo = a.todo
  ready : s.ready = a.ready
  lcr : s.uart.lcr = u.lcr
  fcr : s.uart.fcr = u.fcr

variable {u : Uart} {a a' : CheckedBuffer ι UInt8} {s' : Printers ι} {op : PrintOp ι} {ops : List (PrintOp ι)}

omit [DecidableEq ι] in
theorem Tags.dlab (h : Tags u s a) : s.uart.dlab = u.dlab := dlab_congr h.lcr

omit [DecidableEq ι] in
theorem Tags.capacity (h : Tags u s a) : s.uart.capacity = u.capacity := by
  unfold Uart.capacity
  rw [h.fcr]

omit [DecidableEq ι] in
theorem Tags.transmit (h : Tags u s a) (i : ι) (b : UInt8) :
    (s.uart.transmit b).tx = (a.put u.capacity i b).buf.map Prod.snd ∧
      (s.uart.transmit b).wire = u.wire ++ (a.put u.capacity i b).taken.map Prod.snd ∧
      (s.uart.transmit b).lost = u.lost ++ (a.put u.capacity i b).lost.map Prod.snd ∧
      (s.uart.transmit b).lcr = u.lcr ∧ (s.uart.transmit b).fcr = u.fcr := by
  have hlen : s.uart.tx.length = a.buf.length := by rw [h.tx, List.length_map]
  unfold Uart.transmit CheckedBuffer.put
  rw [h.capacity, hlen]
  split
  · exact ⟨by simp [h.tx], h.wire, h.lost, h.lcr, h.fcr⟩
  · exact ⟨h.tx, h.wire, by simp [h.lost], h.lcr, h.fcr⟩

/-- **The same steps are possible, with the same effect.** -/
theorem Tags.step (hdlab : u.dlab = false) (h : Tags u s a) (op : PrintOp ι) :
    (s.step op = none ∧ a.step u.capacity (buffered op) = none) ∨
      ∃ s' a', s.step op = some s' ∧ a.step u.capacity (buffered op) = some a' ∧ Tags u s' a' := by
  cases op with
  | start i str =>
      by_cases hidle : s.todo i = []
      · refine .inr ⟨_, _, if_pos hidle, if_pos (h.todo ▸ hidle), ?_⟩
        exact ⟨h.tx, h.wire, h.lost, by rw [h.todo], h.ready, h.lcr, h.fcr⟩
      · exact .inl ⟨if_neg hidle, if_neg (h.todo ▸ hidle)⟩
  | poll i =>
      by_cases hcan : s.ready i = false ∧ s.todo i ≠ []
      · have hcan' : a.ready i = false ∧ a.todo i ≠ [] := by rwa [← h.ready, ← h.todo]
        refine .inr ⟨_, _, poll_eq hcan.1 hcan.2, if_pos hcan', ?_⟩
        exact ⟨h.tx, h.wire, h.lost, h.todo, by rw [h.ready, h.tx, List.isEmpty_map], h.lcr, h.fcr⟩
      · have hcan' : ¬ (a.ready i = false ∧ a.todo i ≠ []) := by rwa [← h.ready, ← h.todo]
        exact .inl ⟨if_neg hcan, if_neg hcan'⟩
  | out i =>
      have hd := h.dlab.trans hdlab
      cases hr : s.ready i with
      | false =>
          have hr' : a.ready i = false := by rw [← h.ready, hr]
          exact .inl ⟨by simp [Printers.step, hr], by simp [buffered, CheckedBuffer.step, hr']⟩
      | true =>
          have hr' : a.ready i = true := by rw [← h.ready, hr]
          cases ht : s.todo i with
          | nil =>
              have ht' : a.todo i = [] := by rw [← h.todo, ht]
              exact .inl ⟨by simp [Printers.step, hr, ht], by simp [buffered, CheckedBuffer.step, hr', ht']⟩
          | cons b bs =>
              have ht' : a.todo i = b :: bs := by rw [← h.todo, ht]
              obtain ⟨htx, hwire, hlost, hlcr, hfcr⟩ := h.transmit i b
              have hout : s.uart.outb 0 b = s.uart.transmit b := if_neg (by rw [hd]; decide)
              refine .inr ⟨⟨s.uart.transmit b, Function.update s.todo i bs, Function.update s.ready i false⟩, _, ?_,
                CheckedBuffer.step_write hr' ht', ?_⟩
              · simp [Printers.step, hr, ht, hout]
              · exact ⟨htx, hwire, hlost, by rw [h.todo], by rw [h.ready], hlcr, hfcr⟩
  | line e =>
      refine .inr ⟨_, _, rfl, rfl, ?_⟩
      refine ⟨?_, ?_, h.lost, h.todo, h.ready, h.lcr, h.fcr⟩
      · simp [Uart.pass, h.tx]
      · simp [Uart.pass, h.tx, h.wire]

/-- The runs are the same. -/
theorem Tags.run (hdlab : u.dlab = false) (h : Tags u s a) (ops : List (PrintOp ι)) :
    (ops.foldlM Printers.step s = none ∧ (ops.map buffered).foldlM (CheckedBuffer.step u.capacity) a = none) ∨
      ∃ s' a', ops.foldlM Printers.step s = some s' ∧ (ops.map buffered).foldlM (CheckedBuffer.step u.capacity) a = some a' ∧
        Tags u s' a' := by
  induction ops generalizing s a with
  | nil => exact .inr ⟨s, a, rfl, rfl, h⟩
  | cons op ops ih =>
      simp only [List.map_cons, List.foldlM_cons]
      rcases h.step hdlab op with ⟨hs, ha⟩ | ⟨s₁, a₁, hs, ha, h₁⟩
      · rw [hs, ha]
        exact .inl ⟨rfl, rfl⟩
      · rw [hs, ha]
        exact ih h₁

omit [DecidableEq ι] in
theorem tags_idle (htx : u.tx = []) : Tags u (idle u : Printers ι) CheckedBuffer.idle :=
  ⟨by simp [idle, CheckedBuffer.idle, htx], by simp [idle, CheckedBuffer.idle], by simp [idle, CheckedBuffer.idle], rfl, rfl, rfl, rfl⟩

/-- A run of contexts that print is one of a buffer. -/
theorem exists_buffer_run (hdlab : u.dlab = false) (htx : u.tx = []) (h : ops.foldlM Printers.step (idle u) = some s') :
    ∃ a', (ops.map buffered).foldlM (CheckedBuffer.step u.capacity) CheckedBuffer.idle = some a' ∧ Tags u s' a' := by
  rcases (tags_idle htx).run hdlab ops with ⟨hs, _⟩ | ⟨s'', a', hs, ha, h'⟩
  · rw [hs] at h
    cases h
  · rw [hs] at h
    cases h
    exact ⟨a', ha, h'⟩

omit [DecidableEq ι] in
theorem lost_eq_iff (h : Tags u s a) : s.uart.lost = u.lost ↔ a.lost = [] := by
  rw [h.lost]
  simp

end Printers

open Printers

variable {ι : Type} [DecidableEq ι] [Fintype ι]

/-- **Who may print at the same time.**  Each context tests the transmitter and sends in two steps, and others may run
between them.  However they are interleaved and whatever they print, no byte is lost, exactly when there are no more
contexts than places in the transmitter: sixteen with the FIFO that `serial_init` switches on, one without it. -/
theorem printing_keeps_all_iff (u : Uart) (hdlab : u.dlab = false) (htx : u.tx = []) :
    (∀ (ops : List (PrintOp ι)) (s' : Printers ι), ops.foldlM Printers.step (idle u) = some s' → s'.uart.lost = u.lost) ↔
      Fintype.card ι ≤ u.capacity := by
  constructor
  · intro hall
    by_contra hcap
    obtain ⟨aops, a', hrun, hlost, hstart⟩ := CheckedBuffer.exists_loss (97 : UInt8) (not_le.mp hcap)
    have hback : (aops.map direct).map buffered = aops := by
      rw [List.map_map]
      refine (List.map_congr_left fun op hop => ?_).trans (List.map_id aops)
      cases op with
      | start i xs =>
          rw [hstart _ hop i xs rfl]
          rfl
      | check i => rfl
      | write i => rfl
      | take n => rfl
    rcases (tags_idle htx).run hdlab (aops.map direct) with ⟨_, hnone⟩ | ⟨s', a'', hs, ha, htags⟩
    · rw [hback, hrun] at hnone
      cases hnone
    · rw [hback, hrun] at ha
      cases ha
      exact hlost ((lost_eq_iff htags).mp (hall _ s' hs))
  · intro hcard ops s' h
    obtain ⟨a', ha, htags⟩ := exists_buffer_run hdlab htx h
    exact (lost_eq_iff htags).mpr (CheckedBuffer.fits_idle.lost_run hcard ha)

/-- The device as `serial_early_init` leaves it, seen from the line. -/
def readyUart : Uart := ⟨0, 0x03, 0xC7, 0x0F, 1, 0, [], [], [], []⟩

/-- After `serial_early_init`, on a device whose divisor latch is closed, the registers and the transmitter are those. -/
theorem serialEarlyInit_uart (env : ℕ → LineEvent) (s : SerialLine) (hdlab : s.uart.dlab = false) :
    (s.serialEarlyInit env).uart = { readyUart with
      wire := (s.serialEarlyInit env).uart.wire, lost := s.uart.lost, rx := (s.serialEarlyInit env).uart.rx } := by
  have hlcr : s.uart.lcr &&& 0x80 = 0 := by simpa [Uart.dlab] using hdlab
  have hmcr : (0x0F : UInt8) &&& 0x1F = 0x0F := by decide
  have hlow : (1 : UInt8) &&& 0xFF = 1 := by decide
  have hhigh : ((1 : UInt16) >>> 8).toUInt8 = 0 := by decide
  simp [serialEarlyInit, serialInit, outb_uart, outb_time, Uart.outb, Uart.pass, Uart.dlab, Uart.fifoControl_reset, readyUart,
    SERIAL_BAUD_115200, hlcr, hmcr, hlow, hhigh]

/-- Seventeen contexts are one too many. -/
theorem printing_keeps_all_seventeen : ¬ ∀ (ops : List (PrintOp (Fin 17))) (s' : Printers (Fin 17)),
    ops.foldlM Printers.step (idle readyUart) = some s' → s'.uart.lost = readyUart.lost := by
  rw [printing_keeps_all_iff readyUart (by decide) rfl]
  decide

/-- The string that a context begins to print. -/
def PrintOp.printed (i : ι) : PrintOp ι → List UInt8
  | .start j str => if j = i then str else []
  | _ => []

end HeroOS
