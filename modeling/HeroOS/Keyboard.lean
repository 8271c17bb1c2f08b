import HeroOS.Ring

/-! # The keyboard driver

`drivers/keyboard/keyboard.c`: the interrupt handler decodes one scancode byte (`decode`) and stores
the event it makes, if any, in a ring of `KBD_BUFFER_SIZE` slots, one of which stays unused;
`keyboard_poll` takes events out at the other end.

`keyDown past b` says from the bytes before it which event the byte `b` makes: a key is held when its
latest code without a prefix was a press, and caps lock has been pressed an odd number of times.
`decode_spec` is the agreement of the decoder with it. -/

namespace HeroOS

/-! ### Key codes -/

/-- `KEY_CTRL` -/
def KEY_CTRL : UInt8 := 0x1D
/-- `KEY_LSHIFT` -/
def KEY_LSHIFT : UInt8 := 0x2A
/-- `KEY_RSHIFT` -/
def KEY_RSHIFT : UInt8 := 0x36
/-- `KEY_ALT` -/
def KEY_ALT : UInt8 := 0x38
/-- `KEY_CAPS` -/
def KEY_CAPS : UInt8 := 0x3A
/-- `KBD_BUFFER_SIZE` -/
def KBD_BUFFER_SIZE : ℕ := 256

/-- The codes of the characters of a string. -/
def chars (s : String) : List UInt8 := s.toList.map fun c => UInt8.ofNat c.toNat

/-- `scancode_normal`; the entries behind these are zero. -/
def scancodeNormal : List UInt8 :=
  [0, 0x1B] ++ chars "1234567890-=" ++ [0x08, 0x09] ++ chars "qwertyuiop[]" ++ [0x0A, 0] ++
    chars "asdfghjkl;'\x60" ++ [0] ++ chars "\\zxcvbnm,./" ++ [0] ++ chars "*" ++ [0] ++ chars " "

/-- `scancode_shift`; the entries behind these are zero. -/
def scancodeShift : List UInt8 :=
  [0, 0x1B] ++ chars "!@#$%^&*()_+" ++ [0x08, 0x09] ++ chars "QWERTYUIOP\x7b\x7d" ++ [0x0A, 0] ++
    chars "ASDFGHJKL:\"~" ++ [0] ++ chars "|ZXCVBNM<>?" ++ [0] ++ chars "*" ++ [0] ++ chars " "

/-- `key_event_t` -/
structure KeyEvent where
  scancode : UInt8
  ascii : UInt8
  pressed : Bool
  shift : Bool
  ctrl : Bool
  alt : Bool
  extended : Bool
deriving DecidableEq, Repr

/-! ### The driver -/

/-- The flags of the decoder. -/
structure Decoder where
  /-- `shift_pressed` -/
  shiftPressed : Bool := false
  /-- `ctrl_pressed` -/
  ctrlPressed : Bool := false
  /-- `alt_pressed` -/
  altPressed : Bool := false
  /-- `caps_lock` -/
  capsLock : Bool := false
  /-- `extended_pending` -/
  extendedPending : Bool := false
deriving DecidableEq, Repr

/-- `keyboard_irq_handler` up to the line that buffers the event. -/
def decode (d : Decoder) (scancode : UInt8) : Decoder × Option KeyEvent :=
  if scancode = 0xE0 then ({ d with extendedPending := true }, none)
  else
    let extended := d.extendedPending
    let d := { d with extendedPending := false }
    let released : Bool := scancode &&& 0x80 ≠ 0
    let scancode := scancode &&& 0x7F
    if extended = false ∧ (scancode = KEY_LSHIFT ∨ scancode = KEY_RSHIFT) then
      ({ d with shiftPressed := !released }, none)
    else if extended = false ∧ scancode = KEY_CTRL then ({ d with ctrlPressed := !released }, none)
    else if extended = false ∧ scancode = KEY_ALT then ({ d with altPressed := !released }, none)
    else if extended = false ∧ scancode = KEY_CAPS ∧ released = false then
      ({ d with capsLock := !d.capsLock }, none)
    else if released then (d, none)
    else
      let useShift := d.shiftPressed ^^ d.capsLock
      let ascii :=
        if extended = false then (if useShift then scancodeShift else scancodeNormal).getD scancode.toNat 0 else 0
      (d, some
        { scancode := scancode
          ascii := ascii
          pressed := !released
          shift := d.shiftPressed
          ctrl := d.ctrlPressed
          alt := d.altPressed
          extended := extended })

/-- The static variables of the driver. -/
structure Keyboard extends Decoder where
  /-- `kbd_buffer` -/
  buffer : ℕ → KeyEvent
  /-- `kbd_head` -/
  head : ℕ
  /-- `kbd_tail` -/
  tail : ℕ

namespace Keyboard

/-- The end of `keyboard_irq_handler`: store the event unless the ring is full. -/
def bufferEvent (k : Keyboard) (event : KeyEvent) : Keyboard :=
  let nextTail := (k.tail + 1) % KBD_BUFFER_SIZE
  if nextTail ≠ k.head then { k with buffer := Function.update k.buffer k.tail event, tail := nextTail } else k

/-- `keyboard_irq_handler`, for the byte at the data port. -/
def irqHandler (k : Keyboard) (scancode : UInt8) : Keyboard :=
  match decode k.toDecoder scancode with
  | (d, none) => { k with toDecoder := d }
  | (d, some event) => { k with toDecoder := d }.bufferEvent event

/-- `keyboard_poll`: the event, or nothing where the result is `false`. -/
def keyboardPoll (k : Keyboard) : Keyboard × Option KeyEvent :=
  if k.head = k.tail then (k, none)
  else ({ k with head := (k.head + 1) % KBD_BUFFER_SIZE }, some (k.buffer k.head))

/-- The static data of the driver when the kernel starts, over a buffer of zeros. -/
def powerOn : Keyboard where
  buffer := fun _ => ⟨0, 0, false, false, false, false, false⟩
  head := 0
  tail := 0

/-- The number of buffered events. -/
def count (k : Keyboard) : ℕ := (k.tail + KBD_BUFFER_SIZE - k.head) % KBD_BUFFER_SIZE

/-- The buffered events, the oldest first. -/
def pending (k : Keyboard) : List KeyEvent := Ring.contents KBD_BUFFER_SIZE k.buffer k.head k.count

end Keyboard

/-! ### What a stream of scancodes means -/

/-- The byte is a code of its own: neither a prefix nor behind one. -/
def unprefixed (past : List UInt8) (b : UInt8) : Bool := b ≠ 0xE0 && past.head? ≠ some 0xE0

/-- After the bytes `past`, the latest first, one of the keys had a press as its latest code. -/
def held (keys : List UInt8) : List UInt8 → Bool
  | [] => false
  | b :: past => if unprefixed past b && keys.contains (b &&& 0x7F) then b &&& 0x80 = 0 else held keys past

/-- Caps lock has been pressed an odd number of times. -/
def capsOn : List UInt8 → Bool
  | [] => false
  | b :: past => if unprefixed past b && b == KEY_CAPS then !capsOn past else capsOn past

/-- The keys that make no event of their own. -/
def modifierKeys : List UInt8 := [KEY_LSHIFT, KEY_RSHIFT, KEY_CTRL, KEY_ALT, KEY_CAPS]

/-- The event of a byte `b` behind the bytes `past`, the latest first. -/
def keyDown (past : List UInt8) (b : UInt8) : Option KeyEvent :=
  let extended : Bool := past.head? = some 0xE0
  let shift := held [KEY_LSHIFT, KEY_RSHIFT] past
  if b &&& 0x80 ≠ 0 then none
  else if extended = false ∧ modifierKeys.contains b then none
  else some
    { scancode := b
      ascii :=
        if extended then 0 else (if shift ^^ capsOn past then scancodeShift else scancodeNormal).getD b.toNat 0
      pressed := true
      shift := shift
      ctrl := held [KEY_CTRL] past
      alt := held [KEY_ALT] past
      extended := extended }

/-- The events of a stream of bytes, behind the bytes `past`. -/
def keyEvents (past : List UInt8) : List UInt8 → List KeyEvent
  | [] => []
  | b :: bs => (keyDown past b).toList ++ keyEvents (b :: past) bs

/-- The flags of the decoder after the bytes `past`. -/
def flagsAfter (past : List UInt8) : Decoder where
  shiftPressed := held [KEY_LSHIFT, KEY_RSHIFT] past
  ctrlPressed := held [KEY_CTRL] past
  altPressed := held [KEY_ALT] past
  capsLock := capsOn past
  extendedPending := past.head? = some 0xE0

/-! ### The decoder -/

variable {past : List UInt8} {b : UInt8} {keys : List UInt8}

theorem low_bits (b : UInt8) (h : b &&& 0x80 = 0) : b &&& 0x7F = b := by
  revert b
  decide +kernel

theorem caps_iff (b : UInt8) : b = KEY_CAPS ↔ b &&& 0x7F = KEY_CAPS ∧ b &&& 0x80 = 0 := by
  revert b
  decide +kernel

theorem held_prefix (h : unprefixed past b = false) : held keys (b :: past) = held keys past := by
  simp [held, h]

theorem capsOn_prefix (h : unprefixed past b = false) : capsOn (b :: past) = capsOn past := by
  simp [capsOn, h]

theorem held_code (h : unprefixed past b = true) : held keys (b :: past) =
    if keys.contains (b &&& 0x7F) then decide (b &&& 0x80 = 0) else held keys past := by
  simp [held, h]

theorem capsOn_code (h : unprefixed past b = true) : capsOn (b :: past) =
    if b &&& 0x7F = KEY_CAPS ∧ b &&& 0x80 = 0 then !capsOn past else capsOn past := by
  have hcaps : (b == KEY_CAPS) = decide (b &&& 0x7F = KEY_CAPS ∧ b &&& 0x80 = 0) := by
    rw [Bool.beq_eq_decide_eq]
    exact decide_eq_decide.mpr (caps_iff b)
  rw [capsOn, h, hcaps]
  simp

/-- **The decoder** makes the event of the byte and keeps the flags of the stream. -/
theorem decode_spec (past : List UInt8) (b : UInt8) :
    decode (flagsAfter past) b = (flagsAfter (b :: past), keyDown past b) := by
  by_cases hE : b = 0xE0
  · subst hE
    have hun : unprefixed past 0xE0 = false := by simp [unprefixed]
    have hr : ¬ (0xE0 : UInt8) &&& 0x80 = 0 := by decide
    simp [decode, flagsAfter, keyDown, held_prefix hun, capsOn_prefix hun, hr]
  · by_cases hx : past.head? = some 0xE0
    · have hun : unprefixed past b = false := by simp [unprefixed, hx]
      by_cases hr : b &&& 0x80 = 0
      · simp [decode, flagsAfter, keyDown, held_prefix hun, capsOn_prefix hun, hE, hx, hr, low_bits b hr]
      · simp [decode, flagsAfter, keyDown, held_prefix hun, capsOn_prefix hun, hE, hx, hr]
    · have hun : unprefixed past b = true := by simp [unprefixed, hE, hx]
      by_cases hr : b &&& 0x80 = 0
      · have hb := low_bits b hr
        simp only [decode, flagsAfter, keyDown, held_code hun, capsOn_code hun, hb, hr, hE, hx]
        by_cases hmod : b ∈ modifierKeys
        · simp only [modifierKeys, List.mem_cons, List.not_mem_nil, or_false] at hmod
          rcases hmod with rfl | rfl | rfl | rfl | rfl <;>
            simp [modifierKeys, KEY_LSHIFT, KEY_RSHIFT, KEY_CTRL, KEY_ALT, KEY_CAPS]
        · simp only [modifierKeys, List.mem_cons, List.not_mem_nil, or_false, not_or] at hmod
          simp [modifierKeys, hmod, hE]
      · simp only [decode, flagsAfter, keyDown, held_code hun, capsOn_code hun, hr, hE, hx]
        generalize b &&& 0x7F = code
        by_cases hmod : code ∈ modifierKeys
        · simp only [modifierKeys, List.mem_cons, List.not_mem_nil, or_false] at hmod
          rcases hmod with rfl | rfl | rfl | rfl | rfl <;>
            simp [hr, hE, KEY_LSHIFT, KEY_RSHIFT, KEY_CTRL, KEY_ALT, KEY_CAPS]
        · simp only [modifierKeys, List.mem_cons, List.not_mem_nil, or_false, not_or] at hmod
          simp [hr, hE, hmod]

theorem keyEvents_append (past bs : List UInt8) (b : UInt8) :
    keyEvents past (bs ++ [b]) = keyEvents past bs ++ (keyDown (bs.reverse ++ past) b).toList := by
  induction bs generalizing past with
  | nil => simp [keyEvents]
  | cons c bs ih => simp [keyEvents, ih]

/-! ### The ring -/

namespace Keyboard

variable {k : Keyboard} {event : KeyEvent}

/-- The positions of the ring are in range. -/
structure InRange (k : Keyboard) : Prop where
  head : k.head < KBD_BUFFER_SIZE
  tail : k.tail < KBD_BUFFER_SIZE

theorem length_pending (k : Keyboard) : k.pending.length = k.count := Ring.length_contents _ _ _ _

theorem InRange.tail_eq (h : InRange k) : k.tail = (k.head + k.count) % KBD_BUFFER_SIZE := by
  have hh := h.head
  have ht := h.tail
  unfold count KBD_BUFFER_SIZE at *
  omega

theorem InRange.pending_eq_nil_iff (h : InRange k) : k.pending = [] ↔ k.head = k.tail := by
  have hh := h.head
  have ht := h.tail
  rw [← List.length_eq_zero_iff, length_pending]
  unfold count KBD_BUFFER_SIZE at *
  omega

theorem InRange.full_iff (h : InRange k) : (k.tail + 1) % KBD_BUFFER_SIZE = k.head ↔ k.pending.length = 255 := by
  have hh := h.head
  have ht := h.tail
  rw [length_pending]
  unfold count KBD_BUFFER_SIZE at *
  omega

theorem InRange.bufferEvent (h : InRange k) (event : KeyEvent) : InRange (k.bufferEvent event) := by
  unfold Keyboard.bufferEvent
  dsimp only
  split
  · exact ⟨h.head, Nat.mod_lt _ (by decide)⟩
  · exact h

/-- Storing an event appends it, unless 255 events are pending. -/
theorem InRange.pending_bufferEvent (h : InRange k) (event : KeyEvent) : (k.bufferEvent event).pending =
    if k.pending.length = 255 then k.pending else k.pending ++ [event] := by
  have hfull := h.full_iff
  unfold Keyboard.bufferEvent
  dsimp only
  by_cases hn : (k.tail + 1) % KBD_BUFFER_SIZE = k.head
  · rw [if_neg (not_not.mpr hn), if_pos (hfull.mp hn)]
  · have hlen := mt hfull.mpr hn
    rw [if_pos hn, if_neg hlen]
    rw [length_pending] at hlen
    have hlt : k.count < KBD_BUFFER_SIZE := Nat.mod_lt _ (by decide)
    have hcount : count { k with
        buffer := Function.update k.buffer k.tail event, tail := (k.tail + 1) % KBD_BUFFER_SIZE } = k.count + 1 := by
      have hh := h.head
      have ht := h.tail
      unfold count KBD_BUFFER_SIZE at *
      dsimp only
      omega
    unfold pending
    rw [hcount]
    dsimp only
    rw [h.tail_eq]
    exact Ring.contents_push hlt event

/-- Moving the head on takes out the oldest event. -/
theorem InRange.pending_advance (h : InRange k) (hne : k.head ≠ k.tail) :
    k.pending = k.buffer k.head :: pending { k with head := (k.head + 1) % KBD_BUFFER_SIZE } := by
  have hcount : k.count = count { k with head := (k.head + 1) % KBD_BUFFER_SIZE } + 1 := by
    have hh := h.head
    have ht := h.tail
    unfold count KBD_BUFFER_SIZE at *
    dsimp only
    omega
  unfold pending
  rw [hcount, Ring.contents, Nat.mod_eq_of_lt h.head]
  exact congrArg _ (Ring.contents_congr (Nat.mod_mod _ _).symm)

end Keyboard
end HeroOS
