import HeroOS.KeyboardRuns

/-! # Two shift keys and one flag

`keyboard_irq_handler` keeps one flag for both shift keys, which the latest code of either key sets or clears.  So the
flag is false after one of them has been released while the other is still down.

* `held_pair_iff`: the flag says whether a shift key is held exactly when this is not the case;
* `shift_field_iff`: in a stream of scancodes, every event has the right shift field, and every letter the right case
  while caps lock is off, exactly when no event is made in such a situation. -/

namespace HeroOS

variable {past bs pre : List UInt8} {b : UInt8} {k : Keyboard} {event : KeyEvent}

/-! ### Both keys -/

/-- A shift key is held: its latest code without a prefix was a press. -/
def shiftHeld (past : List UInt8) : Bool := held [KEY_LSHIFT] past || held [KEY_RSHIFT] past

/-- The code of the release of a key. -/
def keyUp (key : UInt8) : UInt8 := key ||| 0x80

/-- The latest code of a shift key without a prefix. -/
def lastShift : List UInt8 → Option UInt8
  | [] => none
  | b :: past =>
      if unprefixed past b && [KEY_LSHIFT, KEY_RSHIFT].contains (b &&& 0x7F) then some b else lastShift past

/-- The latest code of a shift key is its release, and the other shift key is held. -/
def ReleasedOverHeld (past : List UInt8) : Prop :=
  lastShift past = some (keyUp KEY_LSHIFT) ∧ held [KEY_RSHIFT] past = true ∨
    lastShift past = some (keyUp KEY_RSHIFT) ∧ held [KEY_LSHIFT] past = true

theorem high_bits (b : UInt8) (h : b &&& 0x80 ≠ 0) : b = keyUp (b &&& 0x7F) := by
  revert b
  decide +kernel

theorem lastShift_prefix (h : unprefixed past b = false) : lastShift (b :: past) = lastShift past := by
  simp [lastShift, h]

theorem lastShift_code (h : unprefixed past b = true) : lastShift (b :: past) =
    if [KEY_LSHIFT, KEY_RSHIFT].contains (b &&& 0x7F) then some b else lastShift past := by
  simp [lastShift, h]

/-- **The flag and the keys** agree unless one key has been released over the other. -/
theorem held_pair_iff (past : List UInt8) :
    held [KEY_LSHIFT, KEY_RSHIFT] past = shiftHeld past ↔ ¬ ReleasedOverHeld past := by
  induction past with
  | nil => simp [held, shiftHeld, ReleasedOverHeld, lastShift]
  | cons b past ih =>
      unfold shiftHeld ReleasedOverHeld at *
      cases hun : unprefixed past b with
      | false =>
          simp only [ held_prefix hun, lastShift_prefix hun]
          exact ih
      | true =>
          have hne : KEY_LSHIFT ≠ KEY_RSHIFT ∧ keyUp KEY_LSHIFT ≠ keyUp KEY_RSHIFT := by decide
          simp only [held_code hun, lastShift_code hun]
          by_cases hkey : b &&& 0x7F = KEY_LSHIFT ∨ b &&& 0x7F = KEY_RSHIFT
          · by_cases hr : b &&& 0x80 = 0
            · -- a press sets the flag, and is no release
              have hb := low_bits b hr
              have hup : b ≠ keyUp KEY_LSHIFT ∧ b ≠ keyUp KEY_RSHIFT := by
                obtain h | h := hkey <;> rw [hb] at h <;> subst h <;> decide
              obtain h | h := hkey <;> simp [h, hr, hup]
            · -- a release clears it, whatever the other key does
              have hb := high_bits b hr
              obtain h | h := hkey
              · rw [h] at hb
                simp only [h, hr]
                simp [hb, hne]
              · rw [h] at hb
                simp only [h, hr]
                simp [hb, hne.1.symm, hne.2.symm]
          · rw [not_or] at hkey
            simpa [hkey] using ih

/-! ### Events -/

/-- The driver after the bytes `bs`. -/
def fed (bs : List UInt8) : Keyboard := bs.foldl Keyboard.irqHandler .powerOn

/-- The flags of the driver are those of the stream. -/
theorem fed_decoder (bs : List UInt8) : (fed bs).toDecoder = flagsAfter bs.reverse := by
  induction bs using List.reverseRecOn with
  | nil => rfl
  | append_singleton bs b ih =>
      unfold fed at *
      rw [List.foldl_append, List.foldl_cons, List.foldl_nil, Keyboard.irqHandler_decoder, ih, decode_spec,
        List.reverse_append]
      rfl

/-- The byte is a press that makes an event: of a key behind a prefix, or of one that is no modifier. -/
def MakesEvent (past : List UInt8) (b : UInt8) : Prop :=
  b &&& 0x80 = 0 ∧ (past.head? = some 0xE0 ∨ b ∉ modifierKeys)

/-- The code is one of a letter. -/
def isLetterKey (code : UInt8) : Bool :=
  let c := scancodeNormal.getD code.toNat 0
  0x61 ≤ c && c ≤ 0x7A

/-- The character is an upper-case letter. -/
def isUpper (c : UInt8) : Bool := 0x41 ≤ c && c ≤ 0x5A

/-- The event has the right shift field, and for a letter without caps lock the right case. -/
structure ShiftRight (k : Keyboard) (past : List UInt8) (event : KeyEvent) : Prop where
  field : event.shift = shiftHeld past
  letter : k.capsLock = false → event.extended = false → isLetterKey event.scancode = true →
    isUpper event.ascii = shiftHeld past

/-- The two tables differ in the case of the letters. -/
theorem letter_case (code : UInt8) (h : isLetterKey code = true) :
    isUpper (scancodeShift.getD code.toNat 0) = true ∧ isUpper (scancodeNormal.getD code.toNat 0) = false := by
  revert code
  decide +kernel

theorem keyDown_isSome_iff : (keyDown past b).isSome = true ↔ MakesEvent past b := by
  unfold keyDown MakesEvent
  by_cases hr : b &&& 0x80 = 0
  · by_cases hx : past.head? = some 0xE0 <;> simp [hr, hx]
  · simp [hr]

/-- The event is right exactly when the flag is. -/
theorem shiftRight_iff (hk : k.toDecoder = flagsAfter past) (h : keyDown past b = some event) :
    ShiftRight k past event ↔ held [KEY_LSHIFT, KEY_RSHIFT] past = shiftHeld past := by
  have hcaps : k.capsLock = capsOn past := congrArg Decoder.capsLock hk
  unfold keyDown at h
  dsimp only at h
  split at h
  · cases h
  · split at h
    · cases h
    · cases h
      refine ⟨fun hright => hright.field, fun hheld => ⟨hheld, fun hoff hext hletter => ?_⟩⟩
      obtain ⟨hup, hlow⟩ := letter_case b hletter
      dsimp only at hext ⊢
      rw [hcaps] at hoff
      rw [hheld, hoff, hext]
      cases shiftHeld past with
      | true => simpa using hup
      | false => simpa using hlow

/-- Every event of the stream is right. -/
def ShiftsRight (bs : List UInt8) : Prop :=
  ∀ pre b rest, bs = pre ++ b :: rest → ∀ event, (decode (fed pre).toDecoder b).2 = some event →
    ShiftRight (fed pre) pre.reverse event

/-- No event is made after one shift key has been released while the other is held. -/
def ShiftsApart (bs : List UInt8) : Prop :=
  ∀ pre b rest, bs = pre ++ b :: rest → MakesEvent pre.reverse b → ¬ ReleasedOverHeld pre.reverse

/-- **When the shift field is right**, over all streams of scancodes. -/
theorem shift_field_iff (bs : List UInt8) : ShiftsRight bs ↔ ShiftsApart bs := by
  have hdecode : ∀ pre b, (decode (fed pre).toDecoder b).2 = keyDown pre.reverse b := by
    intro pre b
    rw [fed_decoder, decode_spec]
  constructor
  · intro h pre b rest hbs hmakes
    obtain ⟨event, hevent⟩ := Option.isSome_iff_exists.mp (keyDown_isSome_iff.mpr hmakes)
    have hright := h pre b rest hbs event ((hdecode pre b).trans hevent)
    exact (held_pair_iff _).mp ((shiftRight_iff (fed_decoder pre) hevent).mp hright)
  · intro h pre b rest hbs event hevent
    rw [hdecode] at hevent
    have hmakes := keyDown_isSome_iff.mp (Option.isSome_of_eq_some hevent)
    exact (shiftRight_iff (fed_decoder pre) hevent).mpr ((held_pair_iff _).mpr (h pre b rest hbs hmakes))

/-- Both shift keys are pressed, the right one is released, and `a` is pressed: the event has no shift. -/
theorem shift_released_over_held : ¬ ∀ bs, ShiftsRight bs := by
  intro hall
  have hevent : (decode (fed [KEY_LSHIFT, KEY_RSHIFT, keyUp KEY_RSHIFT]).toDecoder 0x1E).2 =
      some ⟨0x1E, 0x61, true, false, false, false, false⟩ := by decide +kernel
  have h := hall [KEY_LSHIFT, KEY_RSHIFT, keyUp KEY_RSHIFT, 0x1E] [KEY_LSHIFT, KEY_RSHIFT, keyUp KEY_RSHIFT] 0x1E []
    rfl _ hevent
  have hheld : shiftHeld [KEY_LSHIFT, KEY_RSHIFT, keyUp KEY_RSHIFT].reverse = true := by decide +kernel
  exact Bool.false_ne_true (h.field.trans hheld)

end HeroOS
