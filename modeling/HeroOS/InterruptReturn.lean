import HeroOS.BootPaging
import HeroOS.Interrupt

/-! # Returning from interrupts

What an interrupted program sees of an interrupt.

* `interrupt_returns`: whatever a handler does, the program goes on with the registers that the frame holds,
  so that only what the handler writes to the frame can be seen in them;
* `interrupts_invisible`: a program computes the same, however often and wherever it is interrupted;
* `double_fault_stack`: the double fault alone is delivered where there is no memory. -/

namespace HeroOS

open Mem

namespace Core

variable {img : Image} {t : SysTables} {handlers : CHandler → Core → Core} {c c' d d' : Core} {cause : Cause}
  {v rsp0 top : ℕ} {W : List Reg}

/-! ### What a handler leaves -/

/-- A handler that was called in `d` returns in `d'`: its stack pointer is as it was, and of the frame it has
written to the words of the registers `W` at most. -/
structure ReturnsTo (W : List Reg) (d d' : Core) : Prop where
  sp : d'.sp = d.sp
  kept : ∀ x, d.sp ≤ x → x < d.sp + FRAME_SIZE →
    (∀ r ∈ W, x < d.sp + frameOffset r ∨ d.sp + frameOffset r + 8 ≤ x) → d'.mem x = d.mem x

theorem frameOffset_apart {r r' : Reg} (h : r ≠ r') :
    frameOffset r + 8 ≤ frameOffset r' ∨ frameOffset r' + 8 ≤ frameOffset r := by
  cases r <;> cases r' <;> first | exact absurd rfl h | (left; decide) | (right; decide)

theorem frameOffset_le (r : Reg) : frameOffset r ≤ 112 ∨ frameOffset r = 160 := by
  cases r <;> first | (left; decide) | (right; rfl)

/-- A word of the frame that is not one of those of `W`. -/
theorem ReturnsTo.read64 (h : ReturnsTo W d d') {off : ℕ} (hoff : off + 8 ≤ FRAME_SIZE)
    (hW : ∀ r ∈ W, off + 8 ≤ frameOffset r ∨ frameOffset r + 8 ≤ off) : d'.mem.read64 (d.sp + off) = d.mem.read64 (d.sp + off) := by
  apply read64_congr
  intro x hx
  have h1 := hx.1
  have h2 := hx.2
  refine h.kept x (by omega) (by omega) fun r hr => ?_
  have hr := hW r hr
  omega

/-- The registers that a handler leaves in the frame. -/
def returned (c : Core) (W : List Reg) (m : Mem) (a : ℕ) (r : Reg) : BitVec 64 :=
  if r ∈ W then BitVec.ofNat 64 (m.read64 (a + frameOffset r)) else c.regs r

/-- **Returning**: the interrupted state, but for the words that the handler has written. -/
theorem HandlerCall.resume (hc : HandlerCall c cause v top d) (htop : top ≤ 2 ^ 64) (h : ReturnsTo W d d') :
    d'.run handlers stubTail = { c with toCpu := { c.toCpu with regs := c.returned W d'.mem d.sp, mem := d'.mem } } := by
  have hlast : ∀ {off : ℕ}, (120 ≤ off ∧ off + 8 ≤ 160 ∨ 168 ≤ off) → off + 8 ≤ FRAME_SIZE →
      d'.mem.read64 (d.sp + off) = d.mem.read64 (d.sp + off) := by
    intro off hoff hle
    refine h.read64 hle fun r _ => ?_
    have hr := frameOffset_le r
    omega
  have hframe := hc.frame
  have hsp := hc.sp
  have hregs : (fun r => BitVec.ofNat 64 (d'.mem.read64 (d.sp + frameOffset r))) = c.returned W d'.mem d.sp := by
    funext r
    unfold returned
    split
    · rfl
    · rename_i hr
      have hle : frameOffset r + 8 ≤ FRAME_SIZE := by cases r <;> decide
      rw [h.read64 hle fun r' hr' => frameOffset_apart fun he => hr (he ▸ hr'), hframe.regs r, BitVec.ofNat_toNat,
        BitVec.setWidth_eq]
  have hcs : BitVec.ofNat 16 c.cs.toNat = c.cs := by rw [BitVec.ofNat_toNat, BitVec.setWidth_eq]
  have hss : BitVec.ofNat 16 c.ss.toNat = c.ss := by rw [BitVec.ofNat_toNat, BitVec.setWidth_eq]
  have hrip : BitVec.ofNat 64 c.rip.toNat = c.rip := by rw [BitVec.ofNat_toNat, BitVec.setWidth_eq]
  unfold stubTail
  rw [run_restore d' (by rw [h.sp, hsp]; exact htop), h.sp]
  unfold frameState
  rw [hregs, hlast (by decide) (by decide), hlast (by decide) (by decide), hlast (by decide) (by decide),
    hlast (by decide) (by decide), hframe.rip, hframe.cs, hframe.rflags, hframe.ss, hcs, hss, hrip, Rflags.ofWord_val]

/-- **Every interrupt returns** to the state that was interrupted, whatever its handler does to other memory. -/
theorem interrupt_returns (hT : KernelTables img t c.mem rsp0) (hv : v < IDT_ENTRY_COUNT) (h8 : v ≠ 8) (hfits : cause.Fits v)
    (hroom : FRAME_SIZE ≤ c.stackTop rsp0) (hnot : ¬ c.Refused cause v)
    (hret : ∀ d, HandlerCall c cause v (c.stackTop rsp0) d → ReturnsTo W d (handlers (vectorHandler v) d)) :
    ∃ d d', HandlerCall c cause v (c.stackTop rsp0) d ∧ d' = handlers (vectorHandler v) d ∧
      c.interrupt img t handlers cause v =
        some { c with toCpu := { c.toCpu with regs := c.returned W d'.mem d.sp, mem := d'.mem } } := by
  obtain ⟨d, hd, hrun⟩ := exists_handlerCall hT hv h8 hfits hroom hnot
  refine ⟨d, _, hd, rfl, ?_⟩
  rw [hrun, hd.resume (stackTop_lt hT).le (hret d hd)]

theorem returned_nil (c : Core) (m : Mem) (a : ℕ) : c.returned [] m a = c.regs := by
  funext r
  simp [returned]

/-! ### Programs that are interrupted -/

/-- What may change under a program that is interrupted: the data `D` of the handlers, and the part of the stack
from `lo` on that the processor and the handlers use. -/
def scratch (D : Set ℕ) (lo rsp0 : ℕ) (c : Core) : Set ℕ := D ∪ Set.Ico lo (c.stackTop rsp0)

/-- A state that differs in the bytes of `S` only. -/
def SameBut (S : Set ℕ) (c c' : Core) : Prop :=
  ∃ m', c' = { c with toCpu := { c.toCpu with mem := m' } } ∧ ∀ x, x ∉ S → m' x = c.mem x

/-- A handler keeps to the calling convention, and writes its own data and the stack below the frame. -/
structure KeepsTo (D : Set ℕ) (lo : ℕ) (h : Core → Core) : Prop where
  sp : ∀ d, (h d).sp = d.sp
  kept : ∀ d x, x ∉ D → x < lo ∨ d.sp ≤ x → (h d).mem x = d.mem x

/-- A hardware interrupt is never refused. -/
theorem not_refused_irq {n : ℕ} (hn : n < IRQ_COUNT) (c : Core) : ¬ c.Refused .hardware (IRQ_BASE + n) := by
  rintro (h | h)
  · apply h
    unfold IRQ_COUNT at hn
    interval_cases n <;> decide
  · cases h.1

theorem fits_irq {n : ℕ} (hn : n < IRQ_COUNT) : Cause.hardware.Fits (IRQ_BASE + n) := by
  intro h
  simp only [errorVectors, List.mem_cons, List.not_mem_nil, or_false] at h
  unfold IRQ_COUNT at hn
  unfold IRQ_BASE at h
  omega

/-- **One interrupt**: only the scratch bytes change. -/
theorem irq_sameBut {D : Set ℕ} {lo hi n : ℕ} (hT : KernelTables img t c.mem rsp0) (hn : n < IRQ_COUNT)
    (hlo : lo + FRAME_SIZE ≤ c.stackTop rsp0) (hhi : c.stackTop rsp0 ≤ hi) (hD : ∀ x ∈ D, x < lo ∨ hi ≤ x)
    (hkeeps : KeepsTo D lo (handlers .irqCommonHandler)) :
    ∃ c', c.interrupt img t handlers .hardware (IRQ_BASE + n) = some c' ∧ SameBut (c.scratch D lo rsp0) c c' := by
  have hhandler : vectorHandler (IRQ_BASE + n) = .irqCommonHandler := if_pos ⟨by omega, by omega⟩
  have hv : IRQ_BASE + n < IDT_ENTRY_COUNT := by
    unfold IRQ_COUNT at hn
    unfold IRQ_BASE IDT_ENTRY_COUNT
    omega
  have h8 : IRQ_BASE + n ≠ 8 := by
    unfold IRQ_BASE
    omega
  -- the frame is no data of the handlers
  have hret : ∀ d, HandlerCall c .hardware (IRQ_BASE + n) (c.stackTop rsp0) d →
      ReturnsTo [] d (handlers (vectorHandler (IRQ_BASE + n)) d) := by
    intro d hd
    have hsp := hd.sp
    rw [hhandler]
    refine ⟨hkeeps.sp d, fun x h1 h2 _ => hkeeps.kept d x (fun hx => ?_) (.inr h1)⟩
    have hapart := hD x hx
    omega
  obtain ⟨d, d', hd, hd', hint⟩ := interrupt_returns hT hv h8 (fits_irq hn) (by omega) (not_refused_irq hn c) hret
  refine ⟨_, hint, d'.mem, ?_, fun x hx => ?_⟩
  · rw [returned_nil]
  · have hsp := hd.sp
    unfold scratch at hx
    rw [Set.mem_union, not_or, Set.mem_Ico, not_and, not_lt] at hx
    obtain ⟨hxD, hxs⟩ := hx
    rw [hd', hhandler]
    by_cases hlow : x < lo
    · rw [hkeeps.kept d x hxD (.inl hlow)]
      exact hd.outside x (.inl (by omega))
    · have htop := hxs (not_lt.mp hlow)
      rw [hkeeps.kept d x hxD (.inr (by omega))]
      exact hd.outside x (.inr htop)

/-- What can happen to a program: it goes on, or it is interrupted. -/
inductive Event where
  | code
  | irq (n : ℕ) (handlers : CHandler → Core → Core)

/-- `Event.code` -/
def Event.isCode : Event → Bool
  | .code => true
  | .irq _ _ => false

/-- One event, for a program whose steps are `prog`. -/
def event (img : Image) (t : SysTables) (prog : Core → Core) (c : Core) : Event → Option Core
  | .code => some (prog c)
  | .irq n handlers => c.interrupt img t handlers .hardware (IRQ_BASE + n)

/-- A program that can be interrupted.  `I` is an invariant of it, by which the stack has room; it leaves the tables
alone; and states that differ in scratch bytes look the same to it, in the sense of `R`. -/
structure Interruptible (t : SysTables) (D : Set ℕ) (lo hi rsp0 : ℕ) (prog : Core → Core) (I : Core → Prop)
    (R : Core → Core → Prop) : Prop where
  data : ∀ x ∈ D, ¬ InTables t x ∧ (x < lo ∨ hi ≤ x)
  stack : ∀ x, lo ≤ x → x < hi → ¬ InTables t x
  room : ∀ c, I c → lo + FRAME_SIZE ≤ c.stackTop rsp0 ∧ c.stackTop rsp0 ≤ hi
  tables : ∀ c, I c → ∀ x, InTables t x → (prog c).mem x = c.mem x
  inv : ∀ c, I c → I (prog c)
  ignores : ∀ c c', I c → SameBut (c.scratch D lo rsp0) c c' → I c' ∧ R c c'
  trans : ∀ a b c, R a b → R b c → R a c
  step : ∀ a b, I a → I b → R a b → R (prog a) (prog b)

/-- What holds between a program that is interrupted, in `b`, and one that is not, in `a`. -/
structure Follows (img : Image) (t : SysTables) (rsp0 : ℕ) (I : Core → Prop) (R : Core → Core → Prop) (a b : Core) : Prop where
  left : I a
  right : I b
  tables : KernelTables img t b.mem rsp0
  same : R a b

section
variable {D : Set ℕ} {lo hi : ℕ} {prog : Core → Core} {I : Core → Prop} {R : Core → Core → Prop} {a b : Core}

/-- An event that is allowed: one of the sixteen interrupts, with a handler that keeps to its memory. -/
def Event.Allowed (D : Set ℕ) (lo : ℕ) : Event → Prop
  | .code => True
  | .irq n handlers => n < IRQ_COUNT ∧ KeepsTo D lo (handlers .irqCommonHandler)

theorem Follows.event (hp : Interruptible t D lo hi rsp0 prog I R) (h : Follows img t rsp0 I R a b) {e : Event}
    (he : e.Allowed D lo) :
    ∃ b', Core.event img t prog b e = some b' ∧ Follows img t rsp0 I R (if e.isCode then prog a else a) b' := by
  obtain ⟨hlo, hhi⟩ := hp.room b h.right
  cases e with
  | code => exact ⟨prog b, rfl, hp.inv a h.left, hp.inv b h.right, h.tables.congr (hp.tables b h.right),
      hp.step a b h.left h.right h.same⟩
  | irq n handlers =>
      obtain ⟨b', hb', hsame⟩ := irq_sameBut h.tables he.1 hlo hhi (fun x hx => (hp.data x hx).2) he.2
      obtain ⟨hI, hR⟩ := hp.ignores b b' h.right hsame
      refine ⟨b', hb', h.left, hI, h.tables.congr fun x hx => ?_, hp.trans _ _ _ h.same hR⟩
      obtain ⟨m', rfl, hm'⟩ := hsame
      apply hm'
      rintro (hxD | ⟨h1, h2⟩)
      · exact (hp.data x hxD).1 hx
      · exact hp.stack x h1 (by omega) hx

theorem Follows.events (hp : Interruptible t D lo hi rsp0 prog I R) {evs : List Event} (hevs : ∀ e ∈ evs, e.Allowed D lo)
    (h : Follows img t rsp0 I R a b) :
    ∃ b', evs.foldlM (Core.event img t prog) b = some b' ∧
      Follows img t rsp0 I R (prog^[evs.countP Event.isCode] a) b' := by
  induction evs generalizing a b with
  | nil => exact ⟨b, rfl, h⟩
  | cons e evs ih =>
      obtain ⟨b₁, hb₁, h₁⟩ := h.event hp (hevs e List.mem_cons_self)
      obtain ⟨b', hb', h'⟩ := ih (fun e' he' => hevs e' (List.mem_cons_of_mem _ he')) h₁
      refine ⟨b', ?_, ?_⟩
      · rw [List.foldlM_cons, hb₁]
        exact hb'
      · rw [List.countP_cons]
        cases e with
        | code => exact h'
        | irq n handlers => exact h'

end

/-- Pushing from address 0. -/
theorem pushes_from_zero (k : Cpu) (ws : List (BitVec 64)) (hsp : k.regs .rsp = 0) (hws : ws ≠ []) (hlen : 8 * ws.length ≤ 2 ^ 64) :
    (k.pushes ws).sp = 2 ^ 64 - 8 * ws.length ∧ ∀ x, x < 2 ^ 64 - 8 * ws.length ∨ 2 ^ 64 ≤ x → (k.pushes ws).mem x = k.mem x := by
  cases ws with
  | nil => exact absurd rfl hws
  | cons w ws =>
      rw [List.length_cons] at hlen
      have hfirst : (k.pushWord w).sp = 2 ^ 64 - 8 := by
        unfold Cpu.sp
        rw [Cpu.pushWord_rsp, hsp]
        rfl
      have hbelow : k.below = 2 ^ 64 - 8 := by
        unfold Cpu.below
        rw [hsp]
        rfl
      have hroom : 8 * ws.length ≤ (k.pushWord w).sp := by omega
      refine ⟨?_, fun x hx => ?_⟩
      · show ((k.pushWord w).pushes ws).sp = _
        rw [Cpu.pushes_sp hroom, hfirst, List.length_cons]
        omega
      · rw [List.length_cons] at hx
        have hrest : ((k.pushWord w).pushes ws).mem x = (k.pushWord w).mem x := Cpu.pushes_of_outside hroom (by omega)
        have hword : (k.pushWord w).mem x = k.mem x := by
          apply write64_of_outside
          rw [hbelow]
          omega
        exact hrest.trans hword

/-- The last GiB has no page directory. -/
theorem pdpte_last_gib {s : Paging} (h : BootState s) {a : ℕ} (h1 : 2 ^ 64 - 2 ^ 30 ≤ a) (h2 : a < 2 ^ 64) : s.pdpte a = 0 := by
  have hal := pml4_aligned s
  have hlow := h.low
  have h4 : idx4 a = 511 := Fin.ext (by
    show pml4Idx a = 511
    rw [pml4Idx_eq]
    omega)
  have h3 : idx3 a = 511 := Fin.ext (by
    show pdptIdx a = 511
    rw [pdptIdx_eq]
    omega)
  unfold Paging.pdpte Paging.pml4e
  rw [h4, h3, h.entries.pml4, if_neg (by decide), if_pos rfl, show s.pml4 + 0x2003 = s.pml4 + 0x2000 + 3 from rfl,
    pteAddr_boot (by omega) (by omega), h.entries.high, if_neg (by decide)]

/-- **The double fault has no stack.**  Its gate names the first stack of the interrupt stack table, which `gdt_init`
leaves 0 and nothing sets: wherever the double fault is raised, the processor pushes its frame to the last bytes of
the address space, and the boot tables map none of them. -/
theorem double_fault_stack (img : Image) (t : SysTables) (c : Core) (err : BitVec 64) (hT : KernelTables img t c.mem rsp0)
    (s : Paging) (hs : BootState s) :
    ∃ d, c.deliver t (.exception err) 8 = some d ∧ d.sp = 2 ^ 64 - 48 ∧
      (∀ x, d.mem x ≠ c.mem x → 2 ^ 64 - 48 ≤ x ∧ x < 2 ^ 64) ∧
      ∀ x, 2 ^ 64 - 48 ≤ x → x < 2 ^ 64 → isPresent (s.pdpte x) = false ∧ s.pagingVirtToPhys x = 0 := by
  obtain ⟨e, he, hev⟩ := exists_gate img (v := 8) (by decide)
  have h8 : e.vector = 8 := UInt8.toNat_inj.mp hev
  have hdel := deliver_eq (c := c) hT he (.exception err)
  rw [hev, if_pos h8, if_neg (by simp), Nat.zero_div, Nat.zero_mul] at hdel
  have hlen : (c.returnWords ++ (Cause.exception err).errorCode 8).length = 6 := rfl
  have hsp : (c.entryCpu e 0).regs .rsp = 0 := by
    show (c.toCpu.set .rsp (BitVec.ofNat 64 0)).regs .rsp = 0
    exact Cpu.set_same c.toCpu .rsp 0
  obtain ⟨hend, hout⟩ := pushes_from_zero (c.entryCpu e 0) (c.returnWords ++ (Cause.exception err).errorCode 8) hsp
    (fun h => by rw [h] at hlen; cases hlen) (by rw [hlen]; omega)
  rw [hlen] at hend hout
  refine ⟨_, hdel, hend, fun x hx => ?_, fun x h1 h2 => ?_⟩
  · by_contra hnot
    exact hx (hout x (by omega))
  · have hzero : isPresent (s.pdpte x) = false := by
      rw [pdpte_last_gib hs (by omega) h2]
      rfl
    exact ⟨hzero, translate_no_pd hzero⟩

/-- A double fault over the sample tables. -/
theorem double_fault_stack_sample : ∃ d, sampleCore.deliver sampleTables (.exception 0) 8 = some d ∧ d.sp = 2 ^ 64 - 48 := by
  obtain ⟨d, hd, hsp, _⟩ := double_fault_stack sampleImage sampleTables sampleCore 0 sampleCore_tables bootMachine
    bootMachine_bootState
  exact ⟨d, hd, hsp⟩

end Core

end HeroOS
