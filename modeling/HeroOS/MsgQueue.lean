import HeroOS.Ring

/-! # Message queues

`msgq_create`, `msgq_destroy`, `msgq_send` and `msgq_recv` of `kernel/ipc/ipc.c`: a table of 64
queues, each a circular buffer of 64 messages with head, tail and count updated separately.
Identifiers are given out once and never again.

`msgq_runs_fifo`: over every run of calls with any identifiers, each live queue is a bounded FIFO
of its own. -/

namespace HeroOS

/-- `MSG_MAX_SIZE` -/
def MSG_MAX_SIZE : ℕ := 1024
/-- `MSG_QUEUE_LEN` -/
def MSG_QUEUE_LEN : ℕ := 64

/-- `message_t` -/
structure Message where
  sender : ℕ
  size : ℕ
  data : Fin MSG_MAX_SIZE → UInt8

/-- `msg_queue_t` -/
structure MsgQueue where
  id : ℕ
  messages : ℕ → Message
  head : ℕ
  tail : ℕ
  count : ℕ

/-- A zeroed queue, as `kcalloc` returns it, with its identifier filled in. -/
def MsgQueue.fresh (id : ℕ) : MsgQueue where
  id := id
  messages := fun _ => ⟨0, 0, fun _ => 0⟩
  head := 0
  tail := 0
  count := 0

/-- Store a message at the tail, as `msgq_send` does. -/
def MsgQueue.push (q : MsgQueue) (msg : Message) : MsgQueue :=
  { q with
    messages := Function.update q.messages q.tail msg
    tail := (q.tail + 1) % MSG_QUEUE_LEN
    count := q.count + 1 }

/-- Drop the message at the head, as `msgq_recv` does. -/
def MsgQueue.pop (q : MsgQueue) : MsgQueue :=
  { q with head := (q.head + 1) % MSG_QUEUE_LEN, count := q.count - 1 }

/-- The static variables `msg_queues` and `next_qid`; a slot without a queue is `NULL`. -/
structure MsgTable where
  queues : ℕ → Option MsgQueue
  nextQid : ℕ

namespace MsgTable

/-- The initial table. -/
def empty : MsgTable := ⟨fun _ => none, 0⟩

/-- The queue `msg_queues[qid]`, with the checks that every call makes. -/
def lookup (t : MsgTable) (qid : ℤ) : Option MsgQueue :=
  if qid < 0 ∨ qid ≥ 64 then none else t.queues qid.toNat

/-- `msg_queues[qid] = q` -/
def set (t : MsgTable) (qid : ℤ) (q : Option MsgQueue) : MsgTable :=
  { t with queues := Function.update t.queues qid.toNat q }

/-- `msgq_create`; `allocated` says whether `kcalloc` succeeds. -/
def msgqCreate (t : MsgTable) (allocated : Bool) : MsgTable × ℤ :=
  if t.nextQid ≥ 64 then (t, -1)
  else if !allocated then (t.set t.nextQid none, -1)
  else ({ t.set t.nextQid (some (.fresh t.nextQid)) with nextQid := t.nextQid + 1 }, t.nextQid)

/-- `msgq_destroy` -/
def msgqDestroy (t : MsgTable) (qid : ℤ) : MsgTable :=
  match t.lookup qid with
  | none => t
  | some _ => t.set qid none

/-- `msgq_send` -/
def msgqSend (t : MsgTable) (qid : ℤ) (msg : Message) : MsgTable × ℤ :=
  match t.lookup qid with
  | none => (t, -1)
  | some q =>
      if q.count ≥ MSG_QUEUE_LEN then (t, -11) else (t.set qid (some (q.push msg)), 0)

/-- `msgq_recv`: the returned value and the message stored for the caller. -/
def msgqRecv (t : MsgTable) (qid : ℤ) : MsgTable × ℤ × Option Message :=
  match t.lookup qid with
  | none => (t, -1, none)
  | some q =>
      if q.count = 0 then (t, -11, none) else (t.set qid (some q.pop), 0, some (q.messages q.head))

end MsgTable

/-! ### One queue -/

namespace MsgQueue

/-- The queued messages, the oldest first. -/
def queued (q : MsgQueue) : List Message := Ring.contents MSG_QUEUE_LEN q.messages q.head q.count

/-- What every call keeps. -/
structure QueueInv (q : MsgQueue) : Prop where
  count_le : q.count ≤ MSG_QUEUE_LEN
  head_lt : q.head < MSG_QUEUE_LEN
  tail_eq : q.tail = (q.head + q.count) % MSG_QUEUE_LEN

theorem QueueInv.fresh (id : ℕ) : QueueInv (.fresh id) := ⟨Nat.zero_le _, (by decide : 0 < MSG_QUEUE_LEN), rfl⟩

variable {q : MsgQueue}

theorem length_queued (q : MsgQueue) : q.queued.length = q.count := Ring.length_contents _ _ _ _

theorem QueueInv.push (h : QueueInv q) (hc : q.count < MSG_QUEUE_LEN) (msg : Message) :
    QueueInv (q.push msg) ∧ (q.push msg).queued = q.queued ++ [msg] := by
  refine ⟨⟨hc, h.head_lt, ?_⟩, ?_⟩
  · unfold MsgQueue.push
    dsimp only
    rw [h.tail_eq, Nat.mod_add_mod, Nat.add_assoc]
  · unfold queued MsgQueue.push
    dsimp only
    rw [h.tail_eq]
    exact Ring.contents_push hc msg

theorem QueueInv.pop (h : QueueInv q) (hc : q.count ≠ 0) :
    QueueInv q.pop ∧ q.queued = q.messages q.head :: q.pop.queued := by
  obtain ⟨k, hk⟩ : ∃ k, q.count = k + 1 := ⟨q.count - 1, by omega⟩
  have hle := h.count_le
  refine ⟨⟨?_, Nat.mod_lt _ (by decide), ?_⟩, ?_⟩
  · unfold MsgQueue.pop
    dsimp only
    omega
  · unfold MsgQueue.pop
    dsimp only
    rw [h.tail_eq, Nat.mod_add_mod, hk, Nat.add_sub_cancel, Nat.add_right_comm, Nat.add_assoc]
  · unfold queued MsgQueue.pop
    dsimp only
    rw [hk, Nat.add_sub_cancel, Ring.contents, Nat.mod_eq_of_lt h.head_lt,
      Ring.contents_congr (Nat.mod_mod (q.head + 1) MSG_QUEUE_LEN)]

end MsgQueue

/-! ### Runs -/

namespace MsgTable

open MsgQueue

/-- The calls of the clients. -/
inductive MsgOp where
  | create (allocated : Bool)
  | destroy (qid : ℤ)
  | send (qid : ℤ) (msg : Message)
  | recv (qid : ℤ)

/-- The table, and for each identifier the messages whose send returned `0` and the messages that
were received, in order. -/
structure MsgLog where
  table : MsgTable
  sent : ℕ → List Message
  received : ℕ → List Message

/-- The value a call returns; `msgq_destroy` returns nothing. -/
def returns (t : MsgTable) : MsgOp → ℤ
  | .create allocated => (t.msgqCreate allocated).2
  | .destroy _ => 0
  | .send qid msg => (t.msgqSend qid msg).2
  | .recv qid => (t.msgqRecv qid).2.1

/-- The identifier a call is about. -/
def target (t : MsgTable) : MsgOp → ℤ
  | .create _ => t.nextQid
  | .destroy qid => qid
  | .send qid _ => qid
  | .recv qid => qid

/-- A call and what it adds to the log. -/
def step (l : MsgLog) : MsgOp → MsgLog
  | .create allocated => { l with table := (l.table.msgqCreate allocated).1 }
  | .destroy qid => { l with table := l.table.msgqDestroy qid }
  | .send qid msg =>
      { l with
        table := (l.table.msgqSend qid msg).1
        sent := if (l.table.msgqSend qid msg).2 = 0 then
            Function.update l.sent qid.toNat (l.sent qid.toNat ++ [msg])
          else l.sent }
  | .recv qid =>
      { l with
        table := (l.table.msgqRecv qid).1
        received := if (l.table.msgqRecv qid).2.1 = 0 then
            Function.update l.received qid.toNat
              (l.received qid.toNat ++ (l.table.msgqRecv qid).2.2.toList)
          else l.received }

/-- The log after the calls `ops` on the initial table. -/
def logOf (ops : List MsgOp) : MsgLog := ops.foldl step ⟨empty, fun _ => [], fun _ => []⟩

/-- What every call keeps: identifiers from `next_qid` on are unused, and every live queue holds
what was sent to it and not yet received. -/
structure LogInv (l : MsgLog) : Prop where
  next_le : l.table.nextQid ≤ 64
  unused : ∀ i, l.table.nextQid ≤ i →
    l.table.queues i = none ∧ l.sent i = [] ∧ l.received i = []
  live : ∀ i q, l.table.queues i = some q → QueueInv q ∧ l.received i ++ q.queued = l.sent i

variable {t : MsgTable} {l : MsgLog} {q : MsgQueue} {qid : ℤ}

theorem lookup_eq_some (h : t.lookup qid = some q) : 0 ≤ qid ∧ t.queues qid.toNat = some q := by
  unfold lookup at h
  split at h
  · cases h
  · rename_i hb
    exact ⟨by omega, h⟩

theorem msgqSend_cases (t : MsgTable) (qid : ℤ) (msg : Message) :
    ((t.msgqSend qid msg).1 = t ∧ (t.msgqSend qid msg).2 < 0) ∨
    ∃ q, 0 ≤ qid ∧ t.queues qid.toNat = some q ∧ q.count < MSG_QUEUE_LEN ∧
      t.msgqSend qid msg = (t.set qid (some (q.push msg)), 0) := by
  unfold msgqSend
  cases h : t.lookup qid with
  | none => exact .inl ⟨rfl, by norm_num⟩
  | some q =>
      obtain ⟨h0, hq⟩ := lookup_eq_some h
      dsimp only
      split
      · exact .inl ⟨rfl, by norm_num⟩
      · exact .inr ⟨q, h0, hq, by omega, rfl⟩

theorem msgqRecv_cases (t : MsgTable) (qid : ℤ) :
    ((t.msgqRecv qid).1 = t ∧ (t.msgqRecv qid).2.1 < 0) ∨
    ∃ q, 0 ≤ qid ∧ t.queues qid.toNat = some q ∧ q.count ≠ 0 ∧
      t.msgqRecv qid = (t.set qid (some q.pop), 0, some (q.messages q.head)) := by
  unfold msgqRecv
  cases h : t.lookup qid with
  | none => exact .inl ⟨rfl, by norm_num⟩
  | some q =>
      obtain ⟨h0, hq⟩ := lookup_eq_some h
      dsimp only
      split
      · exact .inl ⟨rfl, by norm_num⟩
      · rename_i hc
        exact .inr ⟨q, h0, hq, hc, rfl⟩

theorem msgqDestroy_cases (t : MsgTable) (qid : ℤ) :
    t.msgqDestroy qid = t ∨ 0 ≤ qid ∧ t.msgqDestroy qid = t.set qid none := by
  unfold msgqDestroy
  cases h : t.lookup qid with
  | none => exact .inl rfl
  | some q => exact .inr ⟨(lookup_eq_some h).1, rfl⟩

theorem msgqCreate_cases (t : MsgTable) (allocated : Bool) :
    ((t.msgqCreate allocated).1 = t ∨ (t.msgqCreate allocated).1 = t.set t.nextQid none) ∧
      (t.msgqCreate allocated).2 < 0 ∨
    t.nextQid < 64 ∧ t.msgqCreate allocated =
      ({ t.set t.nextQid (some (.fresh t.nextQid)) with nextQid := t.nextQid + 1 }, (t.nextQid : ℤ)) := by
  unfold msgqCreate
  split
  · exact .inl ⟨.inl rfl, by norm_num⟩
  · split
    · exact .inl ⟨.inr rfl, by norm_num⟩
    · exact .inr ⟨by omega, rfl⟩

theorem set_other {i : ℕ} (hi : (i : ℤ) ≠ qid) (h0 : 0 ≤ qid) (x : Option MsgQueue) :
    (t.set qid x).queues i = t.queues i :=
  Function.update_of_ne (fun h => hi (by rw [h, Int.toNat_of_nonneg h0])) _ _

/-- A slot that is `NULL` already is not changed by storing `NULL`. -/
theorem set_none_of_none (h : t.queues qid.toNat = none) : t.set qid none = t := by
  unfold set
  rw [← h, Function.update_eq_self]

/-- Only the target of a call changes. -/
theorem step_other (op : MsgOp) {i : ℕ} (hi : (i : ℤ) ≠ l.table.target op) :
    (step l op).table.queues i = l.table.queues i ∧ (step l op).sent i = l.sent i ∧
      (step l op).received i = l.received i := by
  cases op with
  | create allocated =>
      have hi : (i : ℤ) ≠ l.table.nextQid := hi
      refine ⟨?_, rfl, rfl⟩
      simp only [step]
      obtain ⟨h | h, _⟩ | ⟨_, h⟩ := msgqCreate_cases l.table allocated
      · rw [h]
      · rw [h]
        exact set_other hi (by omega) _
      · rw [h]
        exact set_other hi (by omega) _
  | destroy qid =>
      refine ⟨?_, rfl, rfl⟩
      simp only [step]
      obtain h | ⟨h0, h⟩ := msgqDestroy_cases l.table qid
      · rw [h]
      · rw [h]
        exact set_other hi h0 _
  | send qid msg =>
      simp only [step]
      obtain ⟨h, hneg⟩ | ⟨q, h0, _, _, h⟩ := msgqSend_cases l.table qid msg
      · rw [h, if_neg (by omega)]
        exact ⟨rfl, rfl, trivial⟩
      · rw [h, if_pos rfl]
        refine ⟨set_other hi h0 _, ?_, trivial⟩
        exact Function.update_of_ne (fun h => hi (by rw [h, Int.toNat_of_nonneg h0]; rfl)) _ _
  | recv qid =>
      simp only [step]
      obtain ⟨h, hneg⟩ | ⟨q, h0, _, _, h⟩ := msgqRecv_cases l.table qid
      · rw [h, if_neg (by omega)]
        exact ⟨rfl, trivial, rfl⟩
      · rw [h, if_pos rfl]
        refine ⟨set_other hi h0 _, trivial, ?_⟩
        exact Function.update_of_ne (fun h => hi (by rw [h, Int.toNat_of_nonneg h0]; rfl)) _ _

/-- A call that returns a negative value changes no queue. -/
theorem LogInv.step_negative (h : LogInv l) (op : MsgOp) (hneg : l.table.returns op < 0) :
    (step l op).table = l.table := by
  cases op with
  | create allocated =>
      simp only [step]
      obtain ⟨h' | h', _⟩ | ⟨_, h'⟩ := msgqCreate_cases l.table allocated
      · exact h'
      · rw [h']
        exact set_none_of_none (h.unused _ (by simp)).1
      · rw [returns, h'] at hneg
        dsimp only at hneg
        omega
  | destroy qid => exact absurd hneg (by simp [returns])
  | send qid msg =>
      simp only [step]
      obtain ⟨h', _⟩ | ⟨q, _, _, _, h'⟩ := msgqSend_cases l.table qid msg
      · exact h'
      · rw [returns, h'] at hneg
        exact absurd hneg (lt_irrefl 0)
  | recv qid =>
      simp only [step]
      obtain ⟨h', _⟩ | ⟨q, _, _, _, h'⟩ := msgqRecv_cases l.table qid
      · exact h'
      · rw [returns, h'] at hneg
        exact absurd hneg (lt_irrefl 0)

/-- The invariant needs a look at the target only. -/
theorem LogInv.of_target (h : LogInv l) (op : MsgOp) (hnext : l.table.nextQid ≤ (step l op).table.nextQid)
    (hle : (step l op).table.nextQid ≤ 64)
    (hunused : ∀ i : ℕ, (i : ℤ) = l.table.target op → (step l op).table.nextQid ≤ i →
      (step l op).table.queues i = none ∧ (step l op).sent i = [] ∧ (step l op).received i = [])
    (hlive : ∀ (i : ℕ) q, (i : ℤ) = l.table.target op → (step l op).table.queues i = some q →
      QueueInv q ∧ (step l op).received i ++ q.queued = (step l op).sent i) : LogInv (step l op) := by
  refine ⟨hle, ?_, ?_⟩
  · intro i hi
    by_cases ht : (i : ℤ) = l.table.target op
    · exact hunused i ht hi
    · obtain ⟨h1, h2, h3⟩ := step_other op ht
      rw [h1, h2, h3]
      exact h.unused i (hnext.trans hi)
  · intro i q hq
    by_cases ht : (i : ℤ) = l.table.target op
    · exact hlive i q ht hq
    · obtain ⟨h1, h2, h3⟩ := step_other op ht
      rw [h1] at hq
      rw [h2, h3]
      exact h.live i q hq

theorem LogInv.step_create (h : LogInv l) (allocated : Bool) : LogInv (step l (.create allocated)) := by
  by_cases hneg : l.table.returns (.create allocated) < 0
  · have hl : step l (.create allocated) = l := by
      have ht := h.step_negative _ hneg
      simp only [step] at ht ⊢
      rw [ht]
    rwa [hl]
  · obtain ⟨hlt, hc⟩ := (msgqCreate_cases l.table allocated).resolve_left (fun hc => hneg hc.2)
    refine h.of_target _ ?_ ?_ ?_ ?_
    · simp only [step, hc]
      omega
    · simp only [step, hc]
      omega
    · intro i ht hi
      have ht : (i : ℤ) = l.table.nextQid := ht
      simp only [step, hc] at hi
      omega
    · intro i q ht hq
      obtain rfl : i = l.table.nextQid := by
        have ht : (i : ℤ) = l.table.nextQid := ht
        omega
      simp only [step, hc, set, Int.toNat_natCast, Function.update_self, Option.some.injEq] at hq ⊢
      obtain ⟨_, hs, hr⟩ := h.unused _ le_rfl
      subst hq
      exact ⟨.fresh _, by rw [hs, hr]; rfl⟩

theorem LogInv.step_destroy (h : LogInv l) (qid : ℤ) : LogInv (step l (.destroy qid)) := by
  obtain hc | ⟨h0, hc⟩ := msgqDestroy_cases l.table qid
  · have hl : step l (.destroy qid) = l := by
      simp only [step]
      rw [hc]
    rwa [hl]
  · refine h.of_target _ ?_ ?_ ?_ ?_
    · simp only [step, hc, set]
      exact le_rfl
    · simp only [step, hc, set]
      exact h.next_le
    · intro i ht hi
      simp only [step, hc] at hi ⊢
      obtain ⟨_, hs, hr⟩ := h.unused i hi
      obtain rfl : qid = i := ht.symm
      exact ⟨by simp [set], hs, hr⟩
    · intro i q ht hq
      obtain rfl : qid = i := ht.symm
      simp [step, hc, set] at hq

/-- A live queue's identifier has been handed out. -/
theorem LogInv.lt_next (h : LogInv l) {i : ℕ} (hq : l.table.queues i = some q) : i < l.table.nextQid := by
  by_contra hge
  rw [(h.unused i (not_lt.mp hge)).1] at hq
  cases hq

theorem LogInv.step_send (h : LogInv l) (qid : ℤ) (msg : Message) : LogInv (step l (.send qid msg)) := by
  obtain ⟨hc, hneg⟩ | ⟨q₀, h0, hq₀, hlt, hc⟩ := msgqSend_cases l.table qid msg
  · have hl : step l (.send qid msg) = l := by
      simp only [step]
      rw [hc, if_neg (by omega)]
    rwa [hl]
  · refine h.of_target _ ?_ ?_ ?_ ?_
    · simp only [step, hc, set]
      exact le_rfl
    · simp only [step, hc, set]
      exact h.next_le
    · intro i ht hi
      obtain rfl : qid = i := ht.symm
      simp only [step, hc] at hi
      rw [Int.toNat_natCast] at hq₀
      exact absurd (h.lt_next hq₀) (not_lt.mpr hi)
    · intro i q ht hq
      obtain rfl : qid = i := ht.symm
      simp only [step, hc, set, Int.toNat_natCast, Function.update_self, Option.some.injEq, if_true] at hq ⊢
      subst hq
      obtain ⟨hinv, hlog⟩ := h.live i q₀ hq₀
      obtain ⟨hinv', hpush⟩ := hinv.push hlt msg
      exact ⟨hinv', by rw [hpush, ← List.append_assoc, hlog]⟩

theorem LogInv.step_recv (h : LogInv l) (qid : ℤ) : LogInv (step l (.recv qid)) := by
  obtain ⟨hc, hneg⟩ | ⟨q₀, h0, hq₀, hne, hc⟩ := msgqRecv_cases l.table qid
  · have hl : step l (.recv qid) = l := by
      simp only [step]
      rw [hc, if_neg (by omega)]
    rwa [hl]
  · refine h.of_target _ ?_ ?_ ?_ ?_
    · simp only [step, hc, set]
      exact le_rfl
    · simp only [step, hc, set]
      exact h.next_le
    · intro i ht hi
      obtain rfl : qid = i := ht.symm
      simp only [step, hc] at hi
      rw [Int.toNat_natCast] at hq₀
      exact absurd (h.lt_next hq₀) (not_lt.mpr hi)
    · intro i q ht hq
      obtain rfl : qid = i := ht.symm
      simp only [step, hc, set, Int.toNat_natCast, Function.update_self, Option.some.injEq, if_true,
        Option.toList_some] at hq ⊢
      subst hq
      obtain ⟨hinv, hlog⟩ := h.live i q₀ hq₀
      obtain ⟨hinv', hpop⟩ := hinv.pop hne
      exact ⟨hinv', by rw [← hlog, hpop, List.append_assoc]; rfl⟩

theorem logOf_inv (ops : List MsgOp) : LogInv (logOf ops) := by
  induction ops using List.reverseRecOn with
  | nil =>
      refine ⟨Nat.zero_le _, fun i _ => ⟨rfl, rfl, rfl⟩, ?_⟩
      intro i q hq
      cases hq
  | append_singleton ops op ih =>
      unfold logOf at ih ⊢
      rw [List.foldl_append]
      cases op with
      | create allocated => exact ih.step_create allocated
      | destroy qid => exact ih.step_destroy qid
      | send qid msg => exact ih.step_send qid msg
      | recv qid => exact ih.step_recv qid

/-- A live queue is found under its identifier. -/
theorem LogInv.lookup (h : LogInv l) {i : ℕ} (hq : l.table.queues i = some q) : l.table.lookup i = some q := by
  have hlt := h.lt_next hq
  have hle := h.next_le
  unfold MsgTable.lookup
  rw [if_neg (by omega), Int.toNat_natCast]
  exact hq

theorem msgqSend_zero_iff (h : t.lookup qid = some q) (msg : Message) :
    (t.msgqSend qid msg).2 = 0 ↔ q.queued.length < MSG_QUEUE_LEN := by
  unfold msgqSend
  rw [h, length_queued]
  dsimp only
  split
  · rename_i hc
    exact ⟨fun h => absurd h (by norm_num), fun h => absurd hc (by omega)⟩
  · exact ⟨fun _ => by omega, fun _ => rfl⟩

theorem msgqRecv_head (h : t.lookup qid = some q) (hq : QueueInv q) :
    ((t.msgqRecv qid).2.1 = 0 ↔ q.queued ≠ []) ∧ (t.msgqRecv qid).2.2 = q.queued.head? := by
  unfold msgqRecv
  rw [h]
  dsimp only
  split
  · rename_i hc
    have hnil : q.queued = [] := List.eq_nil_of_length_eq_zero ((length_queued q).trans hc)
    rw [hnil]
    exact ⟨⟨fun h => absurd h (by norm_num), fun h => absurd rfl h⟩, rfl⟩
  · rename_i hc
    rw [(hq.pop hc).2]
    exact ⟨⟨fun _ => List.cons_ne_nil _ _, fun _ => rfl⟩, rfl⟩

/-- **Message queues are bounded FIFOs of their own.**  After any calls with any identifiers: for
every live queue, the messages received from it, followed by the queued ones, are those whose send
on it returned `0`, in order, and at most 64 are queued; a send on it returns `0` exactly when
fewer than 64 are queued, and a receive returns the oldest one exactly when there is one.  The next
call, whatever it is, changes at most the queue it is about, and no queue when it returns a
negative value. -/
theorem msgq_runs_fifo (ops : List MsgOp) :
    (∀ (i : ℕ) q, (logOf ops).table.queues i = some q →
      (logOf ops).received i ++ q.queued = (logOf ops).sent i ∧ q.queued.length ≤ MSG_QUEUE_LEN ∧
      (∀ msg, ((logOf ops).table.msgqSend i msg).2 = 0 ↔ q.queued.length < MSG_QUEUE_LEN) ∧
      (((logOf ops).table.msgqRecv i).2.1 = 0 ↔ q.queued ≠ []) ∧
      ((logOf ops).table.msgqRecv i).2.2 = q.queued.head?) ∧
    (∀ op (i : ℕ), (i : ℤ) ≠ (logOf ops).table.target op →
      (step (logOf ops) op).table.queues i = (logOf ops).table.queues i) ∧
    ∀ op, (logOf ops).table.returns op < 0 →
      (step (logOf ops) op).table.queues = (logOf ops).table.queues := by
  have h := logOf_inv ops
  refine ⟨?_, fun op i hi => (step_other op hi).1, fun op hneg => by rw [h.step_negative op hneg]⟩
  intro i q hq
  obtain ⟨hinv, hlog⟩ := h.live i q hq
  have hlook := h.lookup hq
  refine ⟨hlog, ?_, msgqSend_zero_iff hlook, msgqRecv_head hlook hinv⟩
  rw [length_queued]
  exact hinv.count_le

end MsgTable
end HeroOS
