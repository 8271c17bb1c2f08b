import HeroOS.Keyboard
import HeroOS.Run

/-! # Interrupts during `keyboard_poll`

The handler runs to its end whenever the keyboard interrupts, also between the lines of
`keyboard_poll`: after the ring has been found non-empty, and after the oldest event has been copied
but before the head moves on.  A world is the driver, the place where a call of `keyboard_poll`
stands, and two logs: the events that calls have returned, and the events that the handler has made,
each with the number of events that were then pending.

* `poll_uninterrupted`: without interrupts the three steps are `keyboard_poll`;
* `keyboard_events_exact`: over any order of steps the events returned, followed by those still
  pending, are the events of the stream without those that met 255 pending ones. -/

namespace HeroOS

/-- Where a call of `keyboard_poll` stands. -/
inductive PollCall where
  | idle
  | nonempty
  | copied (event : KeyEvent)
deriving DecidableEq, Repr

/-- The driver with its callers. -/
structure KbdWorld where
  kbd : Keyboard
  call : PollCall
  /-- What the latest call of `keyboard_poll` has returned. -/
  result : Option Bool
  /-- Ghost: the events that calls have returned. -/
  returned : List KeyEvent
  /-- Ghost: the events that the handler has made, each with the number of events then pending. -/
  arrivals : List (KeyEvent × ℕ)

/-- An interrupt, or a step of `keyboard_poll`. -/
inductive KbdOp where
  | irq (scancode : UInt8)
  | check
  | copy
  | advance
deriving DecidableEq, Repr

namespace KbdWorld

/-- The driver when the kernel starts. -/
def boot : KbdWorld := ⟨.powerOn, .idle, none, [], []⟩

/-- One step; a step of `keyboard_poll` is made where its call stands. -/
def exec (w : KbdWorld) : KbdOp → Option KbdWorld
  | .irq scancode => some { w with
      kbd := w.kbd.irqHandler scancode
      arrivals := w.arrivals ++
        (decode w.kbd.toDecoder scancode).2.toList.map (fun event => (event, w.kbd.pending.length)) }
  | .check =>
      if w.call ≠ .idle then none
      else if w.kbd.head = w.kbd.tail then some { w with result := some false }
      else some { w with call := .nonempty, result := none }
  | .copy => if w.call = .nonempty then some { w with call := .copied (w.kbd.buffer w.kbd.head) } else none
  | .advance =>
      match w.call with
      | .copied event => some { w with
          kbd := { w.kbd with head := (w.kbd.head + 1) % KBD_BUFFER_SIZE }
          call := .idle
          result := some true
          returned := w.returned ++ [event] }
      | _ => none

end KbdWorld

/-- A step that can be made. -/
def KbdStep (w : KbdWorld) (op : KbdOp) (w' : KbdWorld) : Prop := w.exec op = some w'

/-- The stream of scancodes after one more step. -/
def scancodesStep (bs : List UInt8) : KbdOp → List UInt8
  | .irq scancode => bs ++ [scancode]
  | _ => bs

/-- The bytes that the handler has read. -/
def scancodes (ops : List KbdOp) : List UInt8 := ops.foldl scancodesStep []

/-- The events that did not meet 255 pending ones. -/
def kept (arrivals : List (KeyEvent × ℕ)) : List KeyEvent :=
  (arrivals.filter (fun a => a.2 ≠ 255)).map Prod.fst

variable {w w' : KbdWorld} {k : Keyboard} {bs : List UInt8} {op : KbdOp} {ops : List KbdOp}

/-! ### The handler -/

namespace Keyboard

theorem InRange.irqHandler (h : InRange k) (b : UInt8) : InRange (k.irqHandler b) := by
  unfold Keyboard.irqHandler
  split
  · exact ⟨h.head, h.tail⟩
  · rename_i d event _
    have hr : InRange { k with toDecoder := d } := ⟨h.head, h.tail⟩
    exact hr.bufferEvent event

/-- **The handler** keeps what is pending and appends the event of the byte unless the ring is full. -/
theorem InRange.pending_irqHandler (h : InRange k) (b : UInt8) : (k.irqHandler b).pending =
    if k.pending.length = 255 then k.pending else k.pending ++ (decode k.toDecoder b).2.toList := by
  unfold Keyboard.irqHandler
  split
  · rename_i d hd
    rw [hd]
    simp [pending, count]
  · rename_i d event hd
    have hr : InRange { k with toDecoder := d } := ⟨h.head, h.tail⟩
    rw [hd]
    exact hr.pending_bufferEvent event

theorem irqHandler_head (k : Keyboard) (b : UInt8) : (k.irqHandler b).head = k.head := by
  unfold Keyboard.irqHandler
  split
  · rfl
  · unfold Keyboard.bufferEvent
    dsimp only
    split <;> rfl

theorem irqHandler_decoder (k : Keyboard) (b : UInt8) :
    (k.irqHandler b).toDecoder = (decode k.toDecoder b).1 := by
  unfold Keyboard.irqHandler
  split
  · rename_i d hd
    rw [hd]
  · rename_i d event hd
    rw [hd]
    unfold Keyboard.bufferEvent
    dsimp only
    split <;> rfl

/-- The oldest event is where the head points. -/
theorem InRange.head?_pending (h : InRange k) (hne : k.head ≠ k.tail) :
    k.pending.head? = some (k.buffer k.head) := by
  rw [h.pending_advance hne]
  rfl

/-- While an event is pending, the handler does not touch the oldest one. -/
theorem InRange.irqHandler_oldest (h : InRange k) (b : UInt8) (hne : k.head ≠ k.tail) :
    (k.irqHandler b).head ≠ (k.irqHandler b).tail ∧ (k.irqHandler b).buffer k.head = k.buffer k.head := by
  have h' := h.irqHandler b
  have hold := h.head?_pending hne
  have hnew : (k.irqHandler b).pending.head? = some (k.buffer k.head) := by
    rw [h.pending_irqHandler]
    split
    · exact hold
    · rw [List.head?_append, hold]
      rfl
  have hne' : (k.irqHandler b).head ≠ (k.irqHandler b).tail := by
    intro heq
    rw [h'.pending_eq_nil_iff.mpr heq] at hnew
    cases hnew
  have hcell := h'.head?_pending hne'
  rw [hnew, irqHandler_head] at hcell
  exact ⟨hne', (Option.some.inj hcell).symm⟩

end Keyboard

/-! ### One step -/

/-- What holds after the bytes `bs` have been read. -/
structure KbdInv (w : KbdWorld) (bs : List UInt8) : Prop where
  range : w.kbd.InRange
  flags : w.kbd.toDecoder = flagsAfter bs.reverse
  made : w.arrivals.map Prod.fst = keyEvents [] bs
  conserved : w.returned ++ w.kbd.pending = kept w.arrivals
  oldest : w.call ≠ .idle → w.kbd.head ≠ w.kbd.tail
  copied : ∀ event, w.call = .copied event → event = w.kbd.buffer w.kbd.head

theorem KbdInv.boot : KbdInv .boot [] :=
  ⟨⟨by decide, by decide⟩, rfl, rfl, rfl, fun h => absurd rfl h, fun _ h => by cases h⟩

theorem kept_append (as : List (KeyEvent × ℕ)) (event : Option KeyEvent) (n : ℕ) :
    kept (as ++ event.toList.map (fun e => (e, n))) = kept as ++ if n = 255 then [] else event.toList := by
  unfold kept
  cases event with
  | none => simp
  | some e => by_cases hn : n = 255 <;> simp [hn]

theorem KbdInv.irq (h : KbdInv w bs) (b : UInt8) (hs : KbdStep w (.irq b) w') : KbdInv w' (bs ++ [b]) := by
  obtain rfl := Option.some.inj hs
  have hdecode : decode w.kbd.toDecoder b = (flagsAfter (b :: bs.reverse), keyDown bs.reverse b) := by
    rw [h.flags, decode_spec]
  refine ⟨h.range.irqHandler b, ?_, ?_, ?_, fun hc => (h.range.irqHandler_oldest b (h.oldest hc)).1, ?_⟩
  · rw [Keyboard.irqHandler_decoder, hdecode, List.reverse_concat]
  · rw [List.map_append, h.made, keyEvents_append, List.append_nil, hdecode]
    simp [Function.comp_def]
  · rw [kept_append, ← h.conserved, h.range.pending_irqHandler]
    split <;> simp
  · intro event hc
    have hne := h.oldest (by rw [hc]; simp)
    have hcell := (h.range.irqHandler_oldest b hne).2
    dsimp only
    rw [Keyboard.irqHandler_head, hcell]
    exact h.copied event hc

theorem KbdInv.step (h : KbdInv w bs) (hs : KbdStep w op w') : KbdInv w' (scancodesStep bs op) := by
  cases op with
  | irq b => exact h.irq b hs
  | check =>
      simp only [KbdStep, KbdWorld.exec] at hs
      split at hs
      · cases hs
      · split at hs
        · cases hs
          exact ⟨h.range, h.flags, h.made, h.conserved, h.oldest, h.copied⟩
        · rename_i hne
          cases hs
          exact ⟨h.range, h.flags, h.made, h.conserved, fun _ => hne, fun _ hc => by cases hc⟩
  | copy =>
      simp only [KbdStep, KbdWorld.exec] at hs
      split at hs
      · rename_i hc
        cases hs
        have hne := h.oldest (by rw [hc]; simp)
        refine ⟨h.range, h.flags, h.made, h.conserved, fun _ => hne, fun event hc => ?_⟩
        exact (PollCall.copied.inj hc).symm
      · cases hs
  | advance =>
      simp only [KbdStep, KbdWorld.exec] at hs
      split at hs
      · rename_i event hc
        cases hs
        have hne := h.oldest (by rw [hc]; simp)
        refine ⟨⟨Nat.mod_lt _ (by decide), h.range.tail⟩, h.flags, h.made, ?_, fun hc => absurd rfl hc,
          fun _ hc => by cases hc⟩
        rw [← h.conserved, h.range.pending_advance hne, h.copied event hc]
        simp
      · cases hs

/-- `keyboard_poll` returns `false` exactly when nothing is pending at its check. -/
theorem KbdInv.check_iff (h : KbdInv w bs) (hs : KbdStep w .check w') :
    w'.result = some false ↔ w.kbd.pending = [] := by
  rw [h.range.pending_eq_nil_iff]
  simp only [KbdStep, KbdWorld.exec] at hs
  split at hs
  · cases hs
  · split at hs
    · rename_i heq
      cases hs
      simp [heq]
    · rename_i hne
      cases hs
      simp [hne]

/-! ### Runs -/

theorem KbdInv.run (h : Run KbdStep .boot ops w) : KbdInv w (scancodes ops) := by
  have hstep : ∀ w bs op w', KbdInv w bs → KbdStep w op w' → KbdInv w' (scancodesStep bs op) :=
    fun _ _ _ _ h hs => h.step hs
  exact h.simulation hstep .boot

/-- Without interrupts, the three steps are `keyboard_poll`. -/
theorem poll_uninterrupted (hc : w.call = .idle) : match w.kbd.keyboardPoll with
    | (k, none) => k = w.kbd ∧ Run KbdStep w [.check] { w with result := some false }
    | (k, some event) => Run KbdStep w [.check, .copy, .advance]
        { w with kbd := k, result := some true, returned := w.returned ++ [event] } := by
  unfold Keyboard.keyboardPoll
  by_cases hne : w.kbd.head = w.kbd.tail
  · rw [if_pos hne]
    refine ⟨rfl, .single ?_⟩
    simp [KbdStep, KbdWorld.exec, hc, hne]
  · rw [if_neg hne]
    dsimp only
    have hcheck : KbdStep w .check { w with call := .nonempty, result := none } := by
      simp [KbdStep, KbdWorld.exec, hc, hne]
    have hcopy : KbdStep { w with call := .nonempty, result := none } .copy
        { w with call := .copied (w.kbd.buffer w.kbd.head), result := none } := by
      simp [KbdStep, KbdWorld.exec]
    refine .cons hcheck (.cons hcopy (.single ?_))
    simp [KbdStep, KbdWorld.exec, hc]

/-- **No key event is lost but on a full ring, and none is changed, doubled or reordered**, over any
order of interrupts and steps of `keyboard_poll` from the start of the driver: the events that calls
have returned, followed by those still pending, are the events of the stream of scancodes without
those that arrived while 255 events were pending; an interrupt that finds 255 pending events changes
none of them; and a call returns `false` exactly when nothing is pending. -/
theorem keyboard_events_exact (h : Run KbdStep .boot ops w) :
    w.arrivals.map Prod.fst = keyEvents [] (scancodes ops) ∧
      w.returned ++ w.kbd.pending = kept w.arrivals ∧
      (∀ b, w.kbd.pending.length = 255 → (w.kbd.irqHandler b).pending = w.kbd.pending) ∧
      ∀ w', KbdStep w .check w' → (w'.result = some false ↔ w.kbd.pending = []) := by
  have hI := KbdInv.run h
  refine ⟨hI.made, hI.conserved, fun b hfull => ?_, fun w' hs => hI.check_iff hs⟩
  rw [hI.range.pending_irqHandler, if_pos hfull]

/-- Shift is pressed and then the key `a`; the key comes up while a poll has copied the event, and the
arrow key up follows its prefix. -/
theorem keyboard_events_two_keys :
    ∃ w, Run KbdStep .boot [.irq 0x2A, .irq 0x1E, .check, .copy, .irq 0x9E, .irq 0xE0, .advance, .irq 0x48] w ∧
      w.returned.map KeyEvent.ascii = chars "A" ∧ w.kbd.pending.map KeyEvent.scancode = [0x48] ∧
      w.returned ++ w.kbd.pending = kept w.arrivals := by
  have h : (List.foldlM KbdWorld.exec .boot
      [.irq 0x2A, .irq 0x1E, .check, .copy, .irq 0x9E, .irq 0xE0, .advance, .irq 0x48]).any (fun w =>
        decide (w.returned.map KeyEvent.ascii = chars "A" ∧ w.kbd.pending.map KeyEvent.scancode = [0x48])) = true := by
    decide +kernel
  obtain ⟨w, hw, h⟩ := (Option.any_eq_true _ _).mp h
  obtain ⟨hret, hpend⟩ := of_decide_eq_true h
  have hrun : Run KbdStep .boot [.irq 0x2A, .irq 0x1E, .check, .copy, .irq 0x9E, .irq 0xE0, .advance, .irq 0x48] w :=
    Run.of_exec (fun _ _ _ h => h) hw
  exact ⟨w, hrun, hret, hpend, (keyboard_events_exact hrun).2.1⟩

end HeroOS
