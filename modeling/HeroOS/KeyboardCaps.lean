import HeroOS.KeyboardShift

/-! # Caps lock and the keys of symbols

`keyboard_irq_handler` chooses the table of characters by `shift_pressed ^ caps_lock`, for every key, so that caps lock
changes digits and punctuation as well.  Two streams of scancodes that differ by codes of caps lock are one list of places:
a code of both streams, or one that was inserted into one of them.

* `decode_toggled`, `agreesOffLetters_iff`: what the other position of caps lock changes in one step;
* `caps_letters_iff`: the events of the two streams agree off the letters exactly when no symbol is typed while the streams
  have been given presses of caps lock whose number is odd. -/

namespace HeroOS

/-- The events that the decoder makes of a stream. -/
def decodeAll (d : Decoder) : List UInt8 → List KeyEvent
  | [] => []
  | b :: bs => (decode d b).2.toList ++ decodeAll (decode d b).1 bs

/-! ### Two streams -/

/-- A code of both streams, or the code of a press or release of caps lock in one of them. -/
inductive Place where
  | both (b : UInt8)
  | first (released : Bool)
  | second (released : Bool)
deriving DecidableEq, Repr

/-- The code of caps lock. -/
def capsCode (released : Bool) : UInt8 := if released then keyUp KEY_CAPS else KEY_CAPS

/-- The first stream. -/
def firstStream : List Place → List UInt8
  | [] => []
  | .both b :: ps => b :: firstStream ps
  | .first released :: ps => capsCode released :: firstStream ps
  | .second _ :: ps => firstStream ps

/-- The second stream. -/
def secondStream : List Place → List UInt8
  | [] => []
  | .both b :: ps => b :: secondStream ps
  | .first _ :: ps => secondStream ps
  | .second released :: ps => capsCode released :: secondStream ps

/-- No code is inserted behind a prefix. -/
def WellPlaced : Bool → List Place → Prop
  | _, [] => True
  | _, .both b :: ps => WellPlaced (b = 0xE0) ps
  | pending, .first _ :: ps => pending = false ∧ WellPlaced false ps
  | pending, .second _ :: ps => pending = false ∧ WellPlaced false ps

/-- The press of a key that is no letter and has another character with shift. -/
def SymbolPress (b : UInt8) : Prop :=
  b &&& 0x80 = 0 ∧ isLetterKey b = false ∧ scancodeShift.getD b.toNat 0 ≠ scancodeNormal.getD b.toNat 0

/-- No symbol is typed without a prefix while the number of inserted presses is odd. -/
def CapsEven : Bool → Bool → List Place → Prop
  | _, _, [] => True
  | pending, odd, .both b :: ps => ¬ (pending = false ∧ odd = true ∧ SymbolPress b) ∧ CapsEven (b = 0xE0) odd ps
  | _, odd, .first released :: ps => CapsEven false (odd ^^ !released) ps
  | _, odd, .second released :: ps => CapsEven false (odd ^^ !released) ps

/-- Two events of one key, with one character unless it is the key of a letter. -/
structure AgreesOffLetters (e e' : KeyEvent) : Prop where
  key : e.scancode = e'.scancode ∧ e.extended = e'.extended
  ascii : isLetterKey e.scancode = false → e.ascii = e'.ascii

/-- The streams make as many events, which agree off the letters. -/
def CapsLettersOnly (ps : List Place) : Prop :=
  List.Forall₂ AgreesOffLetters (decodeAll {} (firstStream ps)) (decodeAll {} (secondStream ps))

/-! ### One code -/

variable {d : Decoder} {b : UInt8} {odd released : Bool} {ps : List Place}

/-- The decoder with caps lock in its other position, or in the same one. -/
def toggled (d : Decoder) (odd : Bool) : Decoder := { d with capsLock := d.capsLock ^^ odd }

/-- The event of a press that makes one. -/
def eventOf (d : Decoder) (b : UInt8) : KeyEvent where
  scancode := b
  ascii :=
    if d.extendedPending = false then
      (if d.shiftPressed ^^ d.capsLock then scancodeShift else scancodeNormal).getD b.toNat 0
    else 0
  pressed := true
  shift := d.shiftPressed
  ctrl := d.ctrlPressed
  alt := d.altPressed
  extended := d.extendedPending

theorem mem_modifierKeys (b : UInt8) : b ∈ modifierKeys ↔
    (b = KEY_LSHIFT ∨ b = KEY_RSHIFT) ∨ b = KEY_CTRL ∨ b = KEY_ALT ∨ b = KEY_CAPS := by
  simp [modifierKeys, or_assoc]

/-- The event of a code. -/
theorem decode_event (d : Decoder) (b : UInt8) : (decode d b).2 =
    if b &&& 0x80 = 0 ∧ (d.extendedPending = true ∨ b ∉ modifierKeys) then some (eventOf d b) else none := by
  by_cases hr : b &&& 0x80 = 0
  · have hb := low_bits b hr
    have hE : b ≠ 0xE0 := by
      rintro rfl
      exact absurd hr (by decide)
    simp only [mem_modifierKeys]
    simp only [decode, if_neg hE, hb, hr, eventOf]
    cases hx : d.extendedPending with
    | true => simp
    | false =>
        split_ifs <;> simp_all
  · rw [if_neg (fun h => hr h.1)]
    unfold decode
    dsimp only
    split_ifs <;> first | rfl | simp_all

/-- **One step** keeps the two positions of caps lock apart, or together. -/
theorem decode_toggled (d : Decoder) (odd : Bool) (b : UInt8) :
    (decode (toggled d odd) b).1 = toggled (decode d b).1 odd := by
  unfold decode toggled
  dsimp only
  split_ifs <;> simp

theorem decode_pending (d : Decoder) (b : UInt8) : (decode d b).1.extendedPending = decide (b = 0xE0) := by
  unfold decode
  by_cases hE : b = 0xE0
  · simp [hE]
  · dsimp only
    rw [if_neg hE]
    split_ifs <;> simp [hE]

/-- A code of caps lock that no prefix stands before. -/
theorem decode_caps (hx : d.extendedPending = false) (released : Bool) :
    decode d (capsCode released) = (toggled d (!released), none) := by
  obtain ⟨shift, ctrl, alt, caps, pending⟩ := d
  obtain rfl : pending = false := hx
  cases released with
  | true => cases caps <;> rfl
  | false => cases caps <;> rfl

theorem toggled_pending (d : Decoder) (odd : Bool) : (toggled d odd).extendedPending = d.extendedPending := rfl

theorem toggled_toggled (d : Decoder) (a b : Bool) : toggled (toggled d a) b = toggled d (a ^^ b) := by
  unfold toggled
  rw [Bool.xor_assoc]

/-- A key whose characters differ makes an event of its own. -/
theorem symbol_not_modifier (b : UInt8) (h : scancodeShift.getD b.toNat 0 ≠ scancodeNormal.getD b.toNat 0) :
    b ∉ modifierKeys := by
  revert b
  decide +kernel

/-- The character from either table. -/
theorem tables_agree_iff (shift : Bool) (i : ℕ) :
    (if shift then scancodeShift else scancodeNormal).getD i 0 = (if shift ^^ true then scancodeShift else scancodeNormal).getD i 0 ↔
      scancodeShift.getD i 0 = scancodeNormal.getD i 0 := by
  cases shift with
  | true => exact Iff.rfl
  | false => exact eq_comm

/-- The events of one press, with caps lock in two positions. -/
theorem agreesOffLetters_iff (hr : b &&& 0x80 = 0) : AgreesOffLetters (eventOf d b) (eventOf (toggled d odd) b) ↔
    ¬ (d.extendedPending = false ∧ odd = true ∧ SymbolPress b) := by
  constructor
  · rintro h ⟨hx, rfl, _, hletter, hne⟩
    have hascii := h.ascii hletter
    unfold eventOf toggled at hascii
    dsimp only at hascii
    rw [if_pos hx, if_pos hx, ← Bool.xor_assoc] at hascii
    exact hne ((tables_agree_iff _ _).mp hascii)
  · intro h
    refine ⟨⟨rfl, rfl⟩, fun hletter => ?_⟩
    unfold eventOf toggled
    dsimp only
    cases hx : d.extendedPending with
    | true => rfl
    | false =>
        cases hodd : odd with
        | false => rw [Bool.xor_false]
        | true =>
            have heq : scancodeShift.getD b.toNat 0 = scancodeNormal.getD b.toNat 0 := by
              by_contra hne
              exact h ⟨hx, hodd, hr, hletter, hne⟩
            rw [if_pos rfl, if_pos rfl, ← Bool.xor_assoc]
            exact (tables_agree_iff _ _).mpr heq

/-! ### Streams -/

/-- **Two streams from two positions of caps lock.** -/
theorem decodeAll_agree_iff (h : WellPlaced d.extendedPending ps) :
    List.Forall₂ AgreesOffLetters (decodeAll d (firstStream ps)) (decodeAll (toggled d odd) (secondStream ps)) ↔
      CapsEven d.extendedPending odd ps := by
  induction ps generalizing d odd with
  | nil => exact ⟨fun _ => trivial, fun _ => .nil⟩
  | cons p ps ih =>
      cases p with
      | both b =>
          have hnext : WellPlaced (decode d b).1.extendedPending ps := by
            rw [decode_pending]
            exact h
          have hrest := @ih _ odd hnext
          rw [decode_pending] at hrest
          rw [firstStream, secondStream, decodeAll, decodeAll, decode_toggled, decode_event, decode_event, toggled_pending,
            CapsEven, ← hrest]
          by_cases hev : b &&& 0x80 = 0 ∧ (d.extendedPending = true ∨ b ∉ modifierKeys)
          · rw [if_pos hev, if_pos hev, ← agreesOffLetters_iff hev.1]
            exact List.forall₂_cons
          · rw [if_neg hev, if_neg hev]
            refine (and_iff_right ?_).symm
            rintro ⟨_, _, hr, _, hne⟩
            exact hev ⟨hr, .inr (symbol_not_modifier b hne)⟩
      | first released =>
          obtain ⟨hx, hps⟩ := h
          have hx' : (toggled d (!released)).extendedPending = false := hx
          have hsame : toggled d odd = toggled (toggled d (!released)) (odd ^^ !released) := by
            rw [toggled_toggled, Bool.xor_comm odd, ← Bool.xor_assoc, Bool.xor_self, Bool.false_xor]
          have hnext : WellPlaced (toggled d (!released)).extendedPending ps := by
            rw [hx']
            exact hps
          have hrest := @ih _ (odd ^^ !released) hnext
          rw [hx'] at hrest
          rw [firstStream, secondStream, decodeAll, decode_caps hx, CapsEven, hsame]
          exact hrest
      | second released =>
          obtain ⟨hx, hps⟩ := h
          have hnext : WellPlaced d.extendedPending ps := by
            rw [hx]
            exact hps
          have hrest := @ih _ (odd ^^ !released) hnext
          have hx' : (toggled d odd).extendedPending = false := hx
          rw [hx] at hrest
          rw [firstStream, secondStream, decodeAll, decode_caps hx', toggled_toggled, CapsEven]
          exact hrest

/-- **When caps lock changes letters only**, over all pairs of streams that differ by inserted codes of caps lock. -/
theorem caps_letters_iff (h : WellPlaced false ps) : CapsLettersOnly ps ↔ CapsEven false false ps :=
  @decodeAll_agree_iff {} false ps h

/-- Caps lock is pressed and pressed again before a digit. -/
theorem caps_letters_twice : CapsLettersOnly [.first false, .first true, .first false, .both 0x02] := by
  have h : WellPlaced false [.first false, .first true, .first false, .both 0x02] := ⟨rfl, rfl, rfl, trivial⟩
  exact (caps_letters_iff h).mpr ⟨fun h => absurd h.2.1 (by decide), trivial⟩

/-- Caps lock is pressed before the digit `1`, which becomes `!`. -/
theorem caps_changes_digit : ¬ ∀ ps, WellPlaced false ps → CapsLettersOnly ps := by
  intro hall
  have h : List.Forall₂ AgreesOffLetters
      [⟨0x02, 0x21, true, false, false, false, false⟩] [⟨0x02, 0x31, true, false, false, false, false⟩] :=
    hall [.first false, .both 0x02] ⟨rfl, trivial⟩
  have hascii := (List.forall₂_cons.mp h).1.ascii (by decide +kernel)
  exact absurd hascii (by decide)

end HeroOS
