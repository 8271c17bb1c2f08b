import HeroOS.Ring
import HeroOS.Word

/-! # Pipes

`pipe_read` and `pipe_write` of `kernel/ipc/ipc.c`: a circular buffer of 4096 bytes with positions
that only grow, modulo `2 ^ 64`, and are reduced modulo 4096 at every access, and a counter of the
buffered bytes.

* `pipeRead_spec` and `pipeWrite_spec`: a call takes bytes off the front of the buffered bytes, or
  appends to them;
* `pipe_runs_fifo`: over every interleaving of reads and writes no byte is lost, duplicated or
  reordered. -/

namespace HeroOS

open Word

/-- `PIPE_BUF_SIZE` -/
def PIPE_BUF_SIZE : ℕ := 4096

/-- `pipe_t` -/
structure Pipe where
  buf : ℕ → UInt8
  readPos : ℕ
  writePos : ℕ
  bytesAvailable : ℕ
  writeClosed : Bool
  readClosed : Bool

namespace Pipe

/-- `pipe_create`: a zeroed block. -/
def create : Pipe where
  buf := fun _ => 0
  readPos := 0
  writePos := 0
  bytesAvailable := 0
  writeClosed := false
  readClosed := false

/-- The loop of `pipe_read`. -/
def readLoop : Pipe → ℕ → Pipe × List UInt8
  | p, 0 => (p, [])
  | p, n + 1 =>
      let r := readLoop { p with
        readPos := wadd p.readPos 1
        bytesAvailable := wsub p.bytesAvailable 1 } n
      (r.1, p.buf (p.readPos % PIPE_BUF_SIZE) :: r.2)

/-- `pipe_read` on a pipe that is not `NULL`: the returned value and the bytes stored in the
caller's buffer. -/
def pipeRead (p : Pipe) (count : ℕ) : Pipe × ℤ × List UInt8 :=
  if p.readClosed then (p, -1, [])
  else if p.bytesAvailable = 0 then
    if p.writeClosed then (p, 0, []) else (p, -11, [])
  else
    let toRead := min count p.bytesAvailable
    ((p.readLoop toRead).1, toRead, (p.readLoop toRead).2)

/-- The loop of `pipe_write`. -/
def writeLoop : Pipe → List UInt8 → Pipe
  | p, [] => p
  | p, b :: bs =>
      writeLoop { p with
        buf := Function.update p.buf (p.writePos % PIPE_BUF_SIZE) b
        writePos := wadd p.writePos 1
        bytesAvailable := wadd p.bytesAvailable 1 } bs

/-- `pipe_write` of the bytes `data` on a pipe that is not `NULL`. -/
def pipeWrite (p : Pipe) (data : List UInt8) : Pipe × ℤ :=
  if p.writeClosed then (p, -1)
  else
    let space := wsub PIPE_BUF_SIZE p.bytesAvailable
    let toWrite := min data.length space
    if toWrite = 0 then (p, -11) else (p.writeLoop (data.take toWrite), toWrite)

/-! ### The buffered bytes -/

/-- The bytes in the pipe, the oldest first. -/
def buffered (p : Pipe) : List UInt8 := Ring.contents PIPE_BUF_SIZE p.buf p.readPos p.bytesAvailable

/-- What every call keeps. -/
structure PipeInv (p : Pipe) : Prop where
  avail_le : p.bytesAvailable ≤ PIPE_BUF_SIZE
  read_lt : p.readPos < 2 ^ 64
  write_eq : p.writePos = wadd p.readPos p.bytesAvailable
  write_open : p.writeClosed = false
  read_open : p.readClosed = false

theorem PipeInv.create : PipeInv create := ⟨Nat.zero_le _, by norm_num [Pipe.create], rfl, rfl, rfl⟩

variable {p p' : Pipe} {n : ℕ}

/-- The buffer size divides `2 ^ 64`, so that wrapped positions address the same cells. -/
theorem wadd_mod_size (a b : ℕ) : wadd a b % PIPE_BUF_SIZE = (a + b) % PIPE_BUF_SIZE :=
  Nat.mod_mod_of_dvd _ ⟨2 ^ 52, by norm_num [PIPE_BUF_SIZE]⟩

theorem readLoop_eq (h : PipeInv p) (hn : n ≤ p.bytesAvailable) :
    p.readLoop n = ({ p with readPos := wadd p.readPos n, bytesAvailable := p.bytesAvailable - n },
      Ring.contents PIPE_BUF_SIZE p.buf p.readPos n) := by
  have hle := h.avail_le
  unfold PIPE_BUF_SIZE at hle
  induction n generalizing p with
  | zero =>
      have hr : wadd p.readPos 0 = p.readPos := wadd_of_lt h.read_lt
      rw [readLoop, hr]
      rfl
  | succ n ih =>
      have hs : wsub p.bytesAvailable 1 = p.bytesAvailable - 1 := wsub_of_le (by omega) (by omega)
      have hw : ∀ k, wadd (wadd p.readPos 1) k = wadd p.readPos (1 + k) := by
        intro k
        unfold wadd
        omega
      have hinv : PipeInv { p with readPos := wadd p.readPos 1, bytesAvailable := p.bytesAvailable - 1 } := by
        refine ⟨?_, wadd_lt _ _, ?_, h.write_open, h.read_open⟩
        · unfold PIPE_BUF_SIZE
          dsimp only
          omega
        · show p.writePos = wadd (wadd p.readPos 1) (p.bytesAvailable - 1)
          rw [hw, h.write_eq, show 1 + (p.bytesAvailable - 1) = p.bytesAvailable by omega]
      rw [readLoop, hs]
      rw [ih hinv (Nat.le_sub_one_of_lt hn) (by dsimp only; omega)]
      dsimp only
      rw [hw, Nat.sub_sub, Nat.add_comm 1 n, Ring.contents, Ring.contents_congr (wadd_mod_size p.readPos 1)]

/-- **A read** takes the returned bytes off the front. -/
theorem pipeRead_spec (h : PipeInv p) (count : ℕ) :
    PipeInv (p.pipeRead count).1 ∧
      (p.pipeRead count).2.2 ++ (p.pipeRead count).1.buffered = p.buffered ∧
      (p.pipeRead count).2.2.length = min count p.bytesAvailable ∧
      (0 ≤ (p.pipeRead count).2.1 → (p.pipeRead count).2.1 = min count p.bytesAvailable) ∧
      ((p.pipeRead count).2.1 < 0 → (p.pipeRead count).1 = p) := by
  unfold pipeRead
  rw [if_neg (by simp [h.read_open])]
  split
  · rename_i h0
    rw [if_neg (by simp [h.write_open]), h0]
    exact ⟨h, rfl, by simp, by simp, fun _ => rfl⟩
  · have hn : min count p.bytesAvailable ≤ p.bytesAvailable := min_le_right _ _
    dsimp only
    rw [readLoop_eq h hn]
    generalize min count p.bytesAvailable = n at hn ⊢
    have hle := h.avail_le
    refine ⟨⟨?_, wadd_lt _ _, ?_, h.write_open, h.read_open⟩, ?_, Ring.length_contents _ _ _ _, fun _ => rfl, ?_⟩
    · dsimp only
      omega
    · dsimp only
      rw [h.write_eq]
      unfold wadd
      omega
    · unfold buffered
      dsimp only
      rw [Ring.contents_congr (wadd_mod_size p.readPos n), ← Ring.contents_add, Nat.add_sub_cancel' hn]
    · intro hneg
      omega

theorem writeLoop_spec (h : PipeInv p) (bs : List UInt8) (hn : p.bytesAvailable + bs.length ≤ PIPE_BUF_SIZE) :
    PipeInv (p.writeLoop bs) ∧ (p.writeLoop bs).buffered = p.buffered ++ bs := by
  induction bs generalizing p with
  | nil => exact ⟨h, (List.append_nil _).symm⟩
  | cons b bs ih =>
      rw [List.length_cons] at hn
      have ha : wadd p.bytesAvailable 1 = p.bytesAvailable + 1 := by
        unfold PIPE_BUF_SIZE at hn
        exact wadd_of_lt (by omega)
      have hinv : PipeInv { p with
          buf := Function.update p.buf (p.writePos % PIPE_BUF_SIZE) b
          writePos := wadd p.writePos 1
          bytesAvailable := p.bytesAvailable + 1 } := by
        refine ⟨?_, h.read_lt, ?_, h.write_open, h.read_open⟩
        · dsimp only
          omega
        · dsimp only
          rw [h.write_eq]
          unfold wadd
          omega
      have hbuf : buffered { p with
          buf := Function.update p.buf (p.writePos % PIPE_BUF_SIZE) b
          writePos := wadd p.writePos 1
          bytesAvailable := p.bytesAvailable + 1 } = p.buffered ++ [b] := by
        unfold buffered
        dsimp only
        rw [h.write_eq, wadd_mod_size]
        exact Ring.contents_push (by omega) b
      rw [writeLoop, ha]
      obtain ⟨h1, h2⟩ := ih hinv (by dsimp only; omega)
      refine ⟨h1, ?_⟩
      rw [h2, hbuf, List.append_assoc]
      rfl

/-- **A write** appends the accepted prefix. -/
theorem pipeWrite_spec (h : PipeInv p) (data : List UInt8) :
    PipeInv (p.pipeWrite data).1 ∧
      (p.pipeWrite data).1.buffered = p.buffered ++ data.take (p.pipeWrite data).2.toNat ∧
      (p.pipeWrite data).2.toNat = min data.length (PIPE_BUF_SIZE - p.bytesAvailable) ∧
      ((p.pipeWrite data).2 < 0 → (p.pipeWrite data).1 = p) := by
  have hle := h.avail_le
  have hspace : wsub PIPE_BUF_SIZE p.bytesAvailable = PIPE_BUF_SIZE - p.bytesAvailable :=
    wsub_of_le (by norm_num [PIPE_BUF_SIZE]) hle
  unfold pipeWrite
  rw [if_neg (by simp [h.write_open]), hspace]
  dsimp only
  split
  · rename_i h0
    rw [h0]
    exact ⟨h, by simp, by simp, fun _ => rfl⟩
  · obtain ⟨h1, h2⟩ := writeLoop_spec h (data.take (min data.length (PIPE_BUF_SIZE - p.bytesAvailable)))
      (by rw [List.length_take]; omega)
    refine ⟨h1, h2, Int.toNat_natCast _, ?_⟩
    intro hneg
    dsimp only at hneg
    omega

/-! ### Runs -/

/-- The calls on a pipe. -/
inductive PipeOp where
  | read (count : ℕ)
  | write (data : List UInt8)
deriving DecidableEq, Repr

/-- A pipe, the bytes that writes accepted and the bytes that reads returned, in order. -/
structure PipeLog where
  pipe : Pipe
  accepted : List UInt8
  returned : List UInt8

/-- A call and what it adds to the log. -/
def step (l : PipeLog) : PipeOp → PipeLog
  | .read count =>
      { l with pipe := (l.pipe.pipeRead count).1, returned := l.returned ++ (l.pipe.pipeRead count).2.2 }
  | .write data =>
      { l with
        pipe := (l.pipe.pipeWrite data).1
        accepted := l.accepted ++ data.take (l.pipe.pipeWrite data).2.toNat }

/-- The log of a fresh pipe after the calls `ops`. -/
def logOf (ops : List PipeOp) : PipeLog := ops.foldl step ⟨create, [], []⟩

theorem step_keeps {l : PipeLog} (op : PipeOp) (h : PipeInv l.pipe)
    (hl : l.returned ++ l.pipe.buffered = l.accepted) :
    PipeInv (step l op).pipe ∧ (step l op).returned ++ (step l op).pipe.buffered = (step l op).accepted := by
  cases op with
  | read count =>
      obtain ⟨h1, h2, _⟩ := pipeRead_spec h count
      refine ⟨h1, ?_⟩
      simp only [step]
      rw [List.append_assoc, h2, hl]
  | write data =>
      obtain ⟨h1, h2, _⟩ := pipeWrite_spec h data
      refine ⟨h1, ?_⟩
      simp only [step]
      rw [h2, ← List.append_assoc, hl]

theorem logOf_keeps (ops : List PipeOp) :
    PipeInv (logOf ops).pipe ∧ (logOf ops).returned ++ (logOf ops).pipe.buffered = (logOf ops).accepted := by
  induction ops using List.reverseRecOn with
  | nil => exact ⟨PipeInv.create, rfl⟩
  | append_singleton ops op ih =>
      unfold logOf at ih ⊢
      rw [List.foldl_append]
      exact step_keeps op ih.1 ih.2

/-- **A pipe is a bounded FIFO of bytes.**  After any interleaving of reads and writes on a fresh
pipe: the bytes returned so far, followed by the buffered ones, are the accepted ones; at most 4096
bytes are buffered, as many as the difference of the positions modulo `2 ^ 64`; and the next call,
whatever it is, transfers as many bytes as it can and changes nothing when it returns a negative
value. -/
theorem pipe_runs_fifo (ops : List PipeOp) :
    (logOf ops).returned ++ (logOf ops).pipe.buffered = (logOf ops).accepted ∧
    (logOf ops).pipe.bytesAvailable ≤ PIPE_BUF_SIZE ∧
    (logOf ops).pipe.readPos + (logOf ops).pipe.bytesAvailable ≡ (logOf ops).pipe.writePos [MOD 2 ^ 64] ∧
    (∀ count, ((logOf ops).pipe.pipeRead count).2.2.length = min count (logOf ops).pipe.bytesAvailable ∧
      (0 ≤ ((logOf ops).pipe.pipeRead count).2.1 →
        ((logOf ops).pipe.pipeRead count).2.1 = min count (logOf ops).pipe.bytesAvailable) ∧
      (((logOf ops).pipe.pipeRead count).2.1 < 0 → ((logOf ops).pipe.pipeRead count).1 = (logOf ops).pipe)) ∧
    ∀ data, ((logOf ops).pipe.pipeWrite data).2.toNat =
        min data.length (PIPE_BUF_SIZE - (logOf ops).pipe.bytesAvailable) ∧
      (((logOf ops).pipe.pipeWrite data).2 < 0 → ((logOf ops).pipe.pipeWrite data).1 = (logOf ops).pipe) := by
  obtain ⟨h, hl⟩ := logOf_keeps ops
  refine ⟨hl, h.avail_le, ?_, fun count => (pipeRead_spec h count).2.2, fun data => (pipeWrite_spec h data).2.2⟩
  rw [h.write_eq]
  exact (Nat.mod_modEq _ _).symm

end Pipe
end HeroOS
