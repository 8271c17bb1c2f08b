import HeroOS.CString
import HeroOS.LinkedList
import HeroOS.Outcome
import HeroOS.Run

/-! # The driver registry

`drivers/driver.c`: the registered drivers form a list through the `next` links of the objects themselves,
the latest one first.  `Listed s xs` says that the list ends and is `xs`, with every driver once.

* Each walk over such a list returns (`driverFind_eq`, `driverFindByType_eq`, `driversProbeAll_eq`), and
  `driver_unregister` takes the driver out (`driverUnregister_eq`).
* `driver_register` puts a driver that is not listed in front (`Listed.register`), and makes a cycle of the
  list where the driver is listed already (`driverRegister_listed`).
* `driver_list_kept_iff`: through a sequence of calls the list is kept exactly if no driver is registered
  that is registered already. -/

namespace HeroOS

open LinkedList CString

/-- `driver_type_t` -/
inductive DriverType where
  | DRIVER_CHAR
  | DRIVER_BLOCK
  | DRIVER_NET
  | DRIVER_DISPLAY
  | DRIVER_INPUT
  | DRIVER_BUS
  | DRIVER_MISC
deriving DecidableEq, Repr

/-- `driver_state_t` -/
inductive DriverState where
  | DRIVER_UNLOADED
  | DRIVER_LOADED
  | DRIVER_RUNNING
  | DRIVER_ERROR
deriving DecidableEq, Repr

/-- `driver_t`, as far as the registry looks at it; of `probe` only whether there is one. -/
structure Driver where
  name : Buf
  type : DriverType
  state : DriverState
  probe : Bool
  next : ℕ

/-- `driver_list_head` and the objects at their addresses. -/
structure Drivers where
  head : ℕ
  drv : ℕ → Driver

/-- What `driver_t **pp` points to: `driver_list_head` or the `next` of an object. -/
inductive Link where
  | head
  | next (d : ℕ)
deriving DecidableEq, Repr

namespace Drivers

variable (s : Drivers)

/-- `d->next` -/
def next (d : ℕ) : ℕ := (s.drv d).next

/-- `*pp` -/
def load : Link → ℕ
  | .head => s.head
  | .next d => s.next d

/-- `*pp = v` -/
def store (v : ℕ) : Link → Drivers
  | .head => { s with head := v }
  | .next d => { s with drv := Function.update s.drv d { s.drv d with next := v } }

/-- `driver_register` -/
def driverRegister (drv : ℕ) : Drivers :=
  if drv = 0 then s else (s.store s.head (.next drv)).store drv .head

/-- The loop of `driver_unregister`. -/
def unregisterLoop (drv : ℕ) : ℕ → Link → Except Halt Drivers
  | 0, _ => .error .outOfFuel
  | fuel + 1, pp =>
      if s.load pp = 0 then .ok s
      else if s.load pp = drv then .ok (s.store (s.next drv) pp)
      else unregisterLoop drv fuel (.next (s.load pp))

/-- `driver_unregister` -/
def driverUnregister (fuel drv : ℕ) : Except Halt Drivers := s.unregisterLoop drv fuel .head

/-- The loop of `driver_find`. -/
def findLoop (name : List UInt8) : ℕ → ℕ → Except Halt ℕ
  | 0, _ => .error .outOfFuel
  | fuel + 1, d =>
      if d = 0 then .ok 0
      else if strcmpEq name (s.drv d).name then .ok d
      else findLoop name fuel (s.next d)

/-- `driver_find` -/
def driverFind (fuel : ℕ) (name : List UInt8) : Except Halt ℕ := s.findLoop name fuel s.head

/-- The loop of `driver_find_by_type`. -/
def findByTypeLoop (type : DriverType) (index : ℕ) : ℕ → ℕ → ℕ → Except Halt ℕ
  | 0, _, _ => .error .outOfFuel
  | fuel + 1, count, d =>
      if d = 0 then .ok 0
      else if (s.drv d).type = type then
        if count = index then .ok d else findByTypeLoop type index fuel ((count + 1) % 2 ^ 32) (s.next d)
      else findByTypeLoop type index fuel count (s.next d)

/-- `driver_find_by_type` -/
def driverFindByType (fuel : ℕ) (type : DriverType) (index : ℕ) : Except Halt ℕ :=
  s.findByTypeLoop type index fuel 0 s.head

/-- `d->state = state` -/
def setState (d : ℕ) (state : DriverState) : Drivers :=
  { s with drv := Function.update s.drv d { s.drv d with state := state } }

/-- The loop of `drivers_probe_all`; `ret` gives what the `probe` of a driver returns, and no `probe` touches the
list. -/
def probeLoop (ret : ℕ → ℤ) : ℕ → Drivers → ℕ → ℕ → ℕ → Except Halt (Drivers × ℕ × ℕ)
  | 0, _, _, _, _ => .error .outOfFuel
  | fuel + 1, s, d, good, bad =>
      if d = 0 then .ok (s, good, bad)
      else if (s.drv d).probe then
        if ret d = 0 then
          let s := s.setState d .DRIVER_RUNNING
          probeLoop ret fuel s (s.next d) (good + 1) bad
        else
          let s := s.setState d .DRIVER_ERROR
          probeLoop ret fuel s (s.next d) good (bad + 1)
      else
        let s := s.setState d .DRIVER_RUNNING
        probeLoop ret fuel s (s.next d) (good + 1) bad

/-- `drivers_probe_all`, with the numbers of drivers that are ready and that failed. -/
def driversProbeAll (fuel : ℕ) (ret : ℕ → ℤ) : Except Halt (Drivers × ℕ × ℕ) := probeLoop ret fuel s s.head 0 0

/-- `keyboard_driver_register`; `keyboardDriver` is the address of the object. -/
def keyboardDriverRegister (keyboardDriver : ℕ) : Drivers := s.driverRegister keyboardDriver

/-- `keyboard_init` -/
def keyboardInit (keyboardDriver : ℕ) : Drivers := s.keyboardDriverRegister keyboardDriver

/-- The list ends and is `xs`, with every driver once. -/
structure Listed (xs : List ℕ) : Prop where
  chain : Chain s.next 0 s.head xs
  nodup : xs.Nodup

variable {s} {xs : List ℕ} {drv a n : ℕ}

/-! ### Links -/

theorem load_next (d : ℕ) : s.load (.next d) = s.next d := rfl

@[simp] theorem store_head (v : ℕ) : (s.store v .head).next = s.next := rfl

theorem store_next (v d : ℕ) : (s.store v (.next d)).next = Function.update s.next d v := by
  funext e
  unfold store next
  dsimp only
  by_cases h : e = d
  · rw [h, Function.update_self, Function.update_self]
  · rw [Function.update_of_ne h, Function.update_of_ne h]

@[simp] theorem load_store_same (v : ℕ) (pp : Link) : (s.store v pp).load pp = v := by
  cases pp with
  | head => rfl
  | next d => rw [load_next, store_next, Function.update_self]

theorem load_store_of_ne (v : ℕ) {pp l : Link} (h : l ≠ pp) : (s.store v pp).load l = s.load l := by
  cases pp with
  | head =>
      cases l with
      | head => exact absurd rfl h
      | next e => rfl
  | next d =>
      cases l with
      | head => rfl
      | next e =>
          have hne : e ≠ d := fun heq => h (congrArg Link.next heq)
          rw [load_next, load_next, store_next, Function.update_of_ne hne]

@[simp] theorem setState_next (d : ℕ) (state : DriverState) : (s.setState d state).next = s.next := by
  funext e
  unfold setState next
  dsimp only
  by_cases h : e = d
  · rw [h, Function.update_self]
  · rw [Function.update_of_ne h]

/-! ### Walks over the list -/

theorem findLoop_eq {name : List UInt8} (h : Chain s.next 0 a xs) (hn : xs.length < n) :
    s.findLoop name n a = .ok ((xs.find? fun d => strcmpEq name (s.drv d).name).getD 0) := by
  induction xs generalizing a n with
  | nil =>
      obtain ⟨n, rfl⟩ : ∃ k, n = k + 1 := ⟨n - 1, by omega⟩
      obtain rfl : a = 0 := h
      rw [findLoop, if_pos rfl]
      rfl
  | cons x xs ih =>
      obtain ⟨rfl, hne, h⟩ := h
      rw [List.length_cons] at hn
      obtain ⟨n, rfl⟩ : ∃ k, n = k + 1 := ⟨n - 1, by omega⟩
      rw [findLoop, if_neg hne, List.find?_cons]
      by_cases hname : strcmpEq name (s.drv a).name = true
      · rw [if_pos hname, hname]
        rfl
      · rw [if_neg hname, Bool.eq_false_iff.mpr hname]
        exact ih h (by omega)

/-- **`driver_find`**: the first driver of the list with the name. -/
theorem driverFind_eq {name : List UInt8} (h : s.Listed xs) (hn : xs.length < n) :
    s.driverFind n name = .ok ((xs.find? fun d => strcmpEq name (s.drv d).name).getD 0) := findLoop_eq h.chain hn

theorem findByTypeLoop_eq {type : DriverType} {index count : ℕ} (h : Chain s.next 0 a xs) (hn : xs.length < n)
    (hindex : index < 2 ^ 32) (hcount : count ≤ index) :
    s.findByTypeLoop type index n count a =
      .ok ((xs.filter fun d => (s.drv d).type = type)[index - count]?.getD 0) := by
  induction xs generalizing a n count with
  | nil =>
      obtain ⟨n, rfl⟩ : ∃ k, n = k + 1 := ⟨n - 1, by omega⟩
      obtain rfl : a = 0 := h
      rw [findByTypeLoop, if_pos rfl]
      rfl
  | cons x xs ih =>
      obtain ⟨rfl, hne, h⟩ := h
      rw [List.length_cons] at hn
      obtain ⟨n, rfl⟩ : ∃ k, n = k + 1 := ⟨n - 1, by omega⟩
      rw [findByTypeLoop, if_neg hne]
      by_cases htype : (s.drv a).type = type
      · rw [if_pos htype, List.filter_cons_of_pos (by simpa using htype)]
        by_cases hlast : count = index
        · rw [if_pos hlast, hlast, Nat.sub_self]
          rfl
        · rw [if_neg hlast, Nat.mod_eq_of_lt (by omega), ih h (by omega) (by omega),
            show index - count = index - (count + 1) + 1 by omega, List.getElem?_cons_succ]
      · rw [if_neg htype, List.filter_cons_of_neg (by simpa using htype)]
        exact ih h (by omega) hcount

/-- **`driver_find_by_type`**: the driver with the number `index` among those of the type. -/
theorem driverFindByType_eq {type : DriverType} {index : ℕ} (h : s.Listed xs) (hn : xs.length < n)
    (hindex : index < 2 ^ 32) : s.driverFindByType n type index =
      .ok ((xs.filter fun d => (s.drv d).type = type)[index]?.getD 0) :=
  findByTypeLoop_eq h.chain hn hindex (Nat.zero_le index)

/-- A driver is ready after `drivers_probe_all`. -/
def ready (s : Drivers) (ret : ℕ → ℤ) (d : ℕ) : Bool := !(s.drv d).probe || ret d = 0

/-- Probing the drivers `xs`. -/
def probed (s : Drivers) (ret : ℕ → ℤ) (xs : List ℕ) : Drivers :=
  { s with drv := fun d =>
      if d ∈ xs then { s.drv d with state := if s.ready ret d then .DRIVER_RUNNING else .DRIVER_ERROR } else s.drv d }

theorem probeLoop_step {ret : ℕ → ℤ} {good bad : ℕ} (ha : a ≠ 0) :
    probeLoop ret (n + 1) s a good bad =
      probeLoop ret n (s.setState a (if s.ready ret a then .DRIVER_RUNNING else .DRIVER_ERROR)) (s.next a)
        (good + if s.ready ret a then 1 else 0) (bad + if s.ready ret a then 0 else 1) := by
  rw [probeLoop, if_neg ha]
  unfold ready
  by_cases hprobe : (s.drv a).probe = true
  · by_cases hret : ret a = 0
    · simp [hprobe, hret]
    · simp [hprobe, hret]
  · simp [hprobe]

theorem ready_setState {ret : ℕ → ℤ} (d : ℕ) (state : DriverState) : (s.setState d state).ready ret = s.ready ret := by
  funext e
  unfold ready setState
  dsimp only
  by_cases he : e = d
  · rw [he, Function.update_self]
  · rw [Function.update_of_ne he]

theorem probed_nil (ret : ℕ → ℤ) : s.probed ret [] = s := by
  unfold probed
  simp

theorem probed_cons {ret : ℕ → ℤ} (hx : a ∉ xs) :
    (s.setState a (if s.ready ret a then .DRIVER_RUNNING else .DRIVER_ERROR)).probed ret xs = s.probed ret (a :: xs) := by
  unfold probed
  rw [ready_setState]
  unfold setState
  dsimp only
  congr 1
  funext d
  by_cases hd : d = a
  · rw [hd, if_neg hx, if_pos List.mem_cons_self, Function.update_self]
  · rw [Function.update_of_ne hd]
    simp only [List.mem_cons, hd, false_or]

theorem probeLoop_eq {ret : ℕ → ℤ} {good bad : ℕ} (h : Chain s.next 0 a xs) (hnd : xs.Nodup) (hn : xs.length < n) :
    probeLoop ret n s a good bad =
      .ok (s.probed ret xs, good + xs.countP (s.ready ret), bad + xs.countP fun d => !s.ready ret d) := by
  induction xs generalizing s a n good bad with
  | nil =>
      obtain ⟨n, rfl⟩ : ∃ k, n = k + 1 := ⟨n - 1, by omega⟩
      obtain rfl : a = 0 := h
      rw [probeLoop, if_pos rfl, probed_nil]
      rfl
  | cons x xs ih =>
      obtain ⟨rfl, hne, h⟩ := h
      obtain ⟨hx, hnd⟩ := List.nodup_cons.mp hnd
      rw [List.length_cons] at hn
      obtain ⟨n, rfl⟩ : ∃ k, n = k + 1 := ⟨n - 1, by omega⟩
      have hchain : Chain (s.setState a (if s.ready ret a then .DRIVER_RUNNING else .DRIVER_ERROR)).next 0 (s.next a) xs := by
        rwa [setState_next]
      rw [probeLoop_step hne, ih hchain hnd (by omega), ready_setState, probed_cons hx, List.countP_cons, List.countP_cons]
      by_cases hready : s.ready ret a = true
      · simp [hready, Nat.add_assoc, Nat.add_comm 1]
      · simp [hready, Nat.add_assoc, Nat.add_comm 1]

/-- **`drivers_probe_all`**: each listed driver gets its state, and the numbers are those of the states. -/
theorem driversProbeAll_eq {ret : ℕ → ℤ} (h : s.Listed xs) (hn : xs.length < n) :
    s.driversProbeAll n ret =
      .ok (s.probed ret xs, xs.countP (s.ready ret), xs.countP fun d => !s.ready ret d) := by
  unfold driversProbeAll
  rw [probeLoop_eq h.chain h.nodup hn, Nat.zero_add, Nat.zero_add]

/-! ### Registering and unregistering -/

theorem driverRegister_null : s.driverRegister 0 = s := if_pos rfl

theorem driverRegister_head (hdrv : drv ≠ 0) : (s.driverRegister drv).head = drv := by
  unfold driverRegister
  rw [if_neg hdrv]
  rfl

theorem driverRegister_next (hdrv : drv ≠ 0) : (s.driverRegister drv).next = Function.update s.next drv s.head := by
  unfold driverRegister
  rw [if_neg hdrv, store_head, store_next]

/-- **`driver_register`** of a driver that is not listed. -/
theorem Listed.register (h : s.Listed xs) (hdrv : drv ≠ 0) (hnew : drv ∉ xs) : (s.driverRegister drv).Listed (drv :: xs) := by
  refine ⟨⟨driverRegister_head hdrv, hdrv, ?_⟩, List.nodup_cons.mpr ⟨hnew, h.nodup⟩⟩
  rw [driverRegister_next hdrv, Function.update_self]
  refine h.chain.congr fun x hx => Function.update_of_ne ?_ _ _
  rintro rfl
  exact hnew hx

/-- **`driver_register`** of a driver that is listed: the list no longer ends. -/
theorem driverRegister_listed (h : s.Listed xs) (hmem : drv ∈ xs) (ys : List ℕ) : ¬ (s.driverRegister drv).Listed ys := by
  have hdrv := h.chain.ne_null hmem
  rintro ⟨hchain, _⟩
  rw [driverRegister_head hdrv, driverRegister_next hdrv] at hchain
  exact h.chain.not_closed h.nodup hmem hchain

/-- `keyboard_init` after the registration of the keyboard, whatever was registered in between. -/
theorem keyboardInit_listed {keyboardDriver : ℕ} (h : s.Listed xs) (hmem : keyboardDriver ∈ xs) (ys : List ℕ) :
    ¬ (s.keyboardInit keyboardDriver).Listed ys := driverRegister_listed h hmem ys

/-- The loop of `driver_unregister` at the link `pp`, which is none of those behind it, takes the driver out of the
rest of the list and leaves all other links alone.  It stops within one step for every driver. -/
theorem unregisterLoop_eq {pp : Link} (h : Chain s.next 0 (s.load pp) xs) (hnd : xs.Nodup)
    (hpp : ∀ x ∈ xs, pp ≠ .next x) :
    ∃ s', Chain s'.next 0 (s'.load pp) (xs.erase drv) ∧
      (∀ l, l ≠ pp → (∀ x ∈ xs, l ≠ .next x) → s'.load l = s.load l) ∧
      ∀ n, s.unregisterLoop drv n pp = .ok s' ∨ n ≤ xs.length ∧ s.unregisterLoop drv n pp = .error .outOfFuel := by
  induction xs generalizing pp with
  | nil =>
      refine ⟨s, h, fun _ _ _ => rfl, fun n => ?_⟩
      cases n with
      | zero => exact .inr ⟨le_rfl, rfl⟩
      | succ n =>
          have h0 : s.load pp = 0 := h
          rw [unregisterLoop, if_pos h0]
          exact .inl rfl
  | cons x xs ih =>
      obtain ⟨hx, hne, h⟩ := h
      obtain ⟨hnew, hnd⟩ := List.nodup_cons.mp hnd
      by_cases hdrv : x = drv
      · -- the driver itself: the link skips it
        refine ⟨s.store (s.next drv) pp, ?_, fun l hl _ => load_store_of_ne _ hl, fun n => ?_⟩
        · rw [load_store_same, ← hdrv, List.erase_cons_head]
          refine h.congr fun y hy => ?_
          exact load_store_of_ne _ (hpp y (List.mem_cons_of_mem _ hy)).symm
        · cases n with
          | zero => exact .inr ⟨Nat.zero_le _, rfl⟩
          | succ n =>
              rw [unregisterLoop, if_neg (by rwa [hx]), if_pos (hx.trans hdrv)]
              exact .inl rfl
      · have hlink : ∀ y ∈ xs, Link.next x ≠ .next y := by
          rintro y hy heq
          rw [Link.next.inj heq] at hnew
          exact hnew hy
        obtain ⟨s', hchain, hframe, hloop⟩ := @ih (.next x) h hnd hlink
        have hkeep : s'.load pp = x := by
          rw [hframe pp (hpp x List.mem_cons_self) (fun y hy => hpp y (List.mem_cons_of_mem _ hy)), hx]
        refine ⟨s', ?_, fun l hl hlx => ?_, fun n => ?_⟩
        · rw [List.erase_cons_tail (by simpa using hdrv), hkeep]
          exact ⟨rfl, hne, hchain⟩
        · exact hframe l (hlx x List.mem_cons_self) (fun y hy => hlx y (List.mem_cons_of_mem _ hy))
        · cases n with
          | zero => exact .inr ⟨Nat.zero_le _, rfl⟩
          | succ n =>
              rw [unregisterLoop, if_neg (by rwa [hx]), if_neg (by rwa [hx]), hx, List.length_cons]
              exact (hloop n).imp_right fun hfuel => ⟨Nat.succ_le_succ hfuel.1, hfuel.2⟩

/-- **`driver_unregister`** -/
theorem driverUnregister_eq (h : s.Listed xs) (drv : ℕ) :
    ∃ s', s'.Listed (xs.erase drv) ∧
      ∀ n, s.driverUnregister n drv = .ok s' ∨ n ≤ xs.length ∧ s.driverUnregister n drv = .error .outOfFuel := by
  have hhead : ∀ x ∈ xs, Link.head ≠ .next x := fun _ _ => nofun
  obtain ⟨s', hchain, _, hloop⟩ := @unregisterLoop_eq s xs drv .head h.chain h.nodup hhead
  exact ⟨s', ⟨hchain, h.nodup.erase drv⟩, hloop⟩

end Drivers

/-! ### Sequences of calls -/

/-- A call that changes the registry. -/
inductive DriverOp where
  | register (drv : ℕ)
  | unregister (drv : ℕ)
deriving DecidableEq, Repr

namespace DriverOp

/-- The drivers that are registered after a call, the latest one first. -/
def apply (registered : List ℕ) : DriverOp → List ℕ
  | register drv => if drv = 0 then registered else registered.insert drv
  | unregister drv => registered.erase drv

/-- The driver of the call is not registered yet. -/
def Fresh (registered : List ℕ) : DriverOp → Prop
  | register drv => drv ∉ registered
  | unregister _ => True

instance (registered : List ℕ) : ∀ op : DriverOp, Decidable (op.Fresh registered)
  | register drv => inferInstanceAs (Decidable (drv ∉ registered))
  | unregister _ => inferInstanceAs (Decidable True)

end DriverOp

/-- No call of the sequence registers a driver that is registered. -/
def FreshOps : List ℕ → List DriverOp → Prop
  | _, [] => True
  | registered, op :: ops => op.Fresh registered ∧ FreshOps (op.apply registered) ops

instance decidableFreshOps : ∀ (registered : List ℕ) (ops : List DriverOp), Decidable (FreshOps registered ops)
  | _, [] => inferInstanceAs (Decidable True)
  | registered, op :: ops =>
      have : Decidable (FreshOps (op.apply registered) ops) := decidableFreshOps (op.apply registered) ops
      inferInstanceAs (Decidable (op.Fresh registered ∧ FreshOps (op.apply registered) ops))

/-- A call that returns. -/
inductive DriverStep : Drivers → DriverOp → Drivers → Prop
  | register (s : Drivers) (drv : ℕ) : DriverStep s (.register drv) (s.driverRegister drv)
  | unregister {s s' : Drivers} {drv fuel : ℕ} (h : s.driverUnregister fuel drv = .ok s') :
      DriverStep s (.unregister drv) s'

namespace Drivers

/-- The list ends with each driver once, the walks over it return, and only registered drivers are found. -/
structure Kept (s : Drivers) (registered : List ℕ) : Prop where
  listed : ∃ xs, s.Listed xs
  find : ∀ name, ∃ d n, (d = 0 ∨ d ∈ registered) ∧ ∀ m ≥ n, s.driverFind m name = .ok d
  findByType : ∀ type index, index < 2 ^ 32 →
    ∃ d n, (d = 0 ∨ d ∈ registered) ∧ ∀ m ≥ n, s.driverFindByType m type index = .ok d
  probe : ∀ ret, ∃ r n, ∀ m ≥ n, s.driversProbeAll m ret = .ok r

/-- After every beginning of a sequence of calls, these have returned and the registry is kept. -/
def KeptThrough (s : Drivers) (registered : List ℕ) (ops : List DriverOp) : Prop :=
  ∀ pre, pre <+: ops → (∃ s', Run DriverStep s pre s') ∧
    ∀ s', Run DriverStep s pre s' → s'.Kept (pre.foldl DriverOp.apply registered)

variable {s s' : Drivers} {xs : List ℕ} {op : DriverOp} {ops : List DriverOp}

theorem getD_mem (o : Option ℕ) (h : ∀ d, o = some d → d ∈ xs) : o.getD 0 = 0 ∨ o.getD 0 ∈ xs := by
  cases o with
  | none => exact .inl rfl
  | some d => exact .inr (h d rfl)

theorem Listed.kept (h : s.Listed xs) : s.Kept xs := by
  refine ⟨⟨xs, h⟩, fun name => ?_, fun type index hindex => ?_, fun ret => ?_⟩
  · exact ⟨_, xs.length + 1, getD_mem _ (fun d hd => List.mem_of_find?_eq_some hd), fun m hm => driverFind_eq h hm⟩
  · refine ⟨_, xs.length + 1, getD_mem _ (fun d hd => ?_), fun m hm => driverFindByType_eq h hm hindex⟩
    exact List.mem_of_mem_filter (List.mem_of_getElem? hd)
  · exact ⟨_, xs.length + 1, fun m hm => driversProbeAll_eq h hm⟩

/-- A call with a driver that is not registered yet returns, in one way only and with the list expected. -/
theorem Listed.step (h : s.Listed xs) (hfresh : op.Fresh xs) :
    ∃ s₁, s₁.Listed (op.apply xs) ∧ ∀ s', DriverStep s op s' ↔ s' = s₁ := by
  cases op with
  | register drv =>
      refine ⟨s.driverRegister drv, ?_, fun s' => ⟨?_, ?_⟩⟩
      · unfold DriverOp.apply
        dsimp only
        by_cases hdrv : drv = 0
        · rwa [if_pos hdrv, hdrv, driverRegister_null]
        · rw [if_neg hdrv, List.insert_of_not_mem hfresh]
          exact h.register hdrv hfresh
      · rintro ⟨⟩
        rfl
      · rintro rfl
        exact .register s drv
  | unregister drv =>
      obtain ⟨s₁, hlisted, hcall⟩ := driverUnregister_eq h drv
      refine ⟨s₁, hlisted, fun s' => ⟨?_, ?_⟩⟩
      · rintro ⟨⟩
        rename_i fuel hok
        obtain hcall | ⟨_, hcall⟩ := hcall fuel
        · exact Except.ok.inj (hok.symm.trans hcall)
        · exact absurd (hok.symm.trans hcall) nofun
      · rintro rfl
        exact .unregister ((hcall (xs.length + 1)).resolve_right fun hfuel => by omega)

/-- A call that keeps the list registers no driver that is listed. -/
theorem Listed.fresh (h : s.Listed xs) (hkept : ∀ s', DriverStep s op s' → ∃ ys, s'.Listed ys) : op.Fresh xs := by
  cases op with
  | register drv =>
      intro hmem
      obtain ⟨ys, hys⟩ := hkept _ (.register s drv)
      exact driverRegister_listed h hmem ys hys
  | unregister drv => trivial

/-- The same through a sequence of calls, from any list. -/
theorem Listed.run_iff (h : s.Listed xs) : s.KeptThrough xs ops ↔ FreshOps xs ops := by
  induction ops generalizing s xs with
  | nil =>
      refine ⟨fun _ => trivial, fun _ pre hpre => ?_⟩
      obtain rfl := List.prefix_nil.mp hpre
      refine ⟨⟨s, .nil s⟩, ?_⟩
      rintro _ ⟨⟩
      exact h.kept
  | cons op ops ih =>
      constructor
      · intro hall
        have hone := hall [op] ⟨ops, rfl⟩
        have hfresh : op.Fresh xs := h.fresh fun s' hs' => (hone.2 s' (.single hs')).listed
        obtain ⟨s₁, hlisted, hstep⟩ := h.step hfresh
        refine ⟨hfresh, (ih hlisted).mp fun pre hpre => ?_⟩
        obtain ⟨⟨s', hrun⟩, hkept⟩ := hall (op :: pre) ((List.prefix_cons_inj op).mpr hpre)
        refine ⟨?_, fun s' hs' => hkept s' (.cons ((hstep s₁).mpr rfl) hs')⟩
        cases hrun with
        | cons hs hrun =>
            rw [(hstep _).mp hs] at hrun
            exact ⟨s', hrun⟩
      · rintro ⟨hfresh, hrest⟩ pre hpre
        obtain ⟨s₁, hlisted, hstep⟩ := h.step hfresh
        cases pre with
        | nil =>
            refine ⟨⟨s, .nil s⟩, ?_⟩
            rintro _ ⟨⟩
            exact h.kept
        | cons op' pre =>
            obtain ⟨rfl, hpre'⟩ := List.cons_prefix_cons.mp hpre
            obtain ⟨⟨s', hrun⟩, hkept⟩ := (ih hlisted).mpr hrest pre hpre'
            refine ⟨⟨s', .cons ((hstep s₁).mpr rfl) hrun⟩, fun s' hs' => ?_⟩
            cases hs' with
            | cons hs hrun =>
                rw [(hstep _).mp hs] at hrun
                exact hkept s' hrun

/-- Through a sequence of calls from the boot on every call returns and the registry is kept, if and only if no
call registers a driver that is registered. -/
theorem driver_list_kept_iff (h0 : s.head = 0) (ops : List DriverOp) : s.KeptThrough [] ops ↔ FreshOps [] ops := by
  have hempty : s.Listed [] := ⟨h0, List.nodup_nil⟩
  exact hempty.run_iff

/-- The registry before the first call. -/
def boot : Drivers := ⟨0, fun _ => ⟨fun _ => 0, .DRIVER_MISC, .DRIVER_UNLOADED, false, 0⟩⟩

theorem driver_list_kept_again : boot.KeptThrough [] [.register 1, .register 2, .unregister 1, .register 1] :=
  (driver_list_kept_iff rfl _).mpr (by decide)

/-- The keyboard is registered twice. -/
theorem driver_list_keyboard_twice : ¬ ∀ (s : Drivers) (ops : List DriverOp), s.head = 0 → s.KeptThrough [] ops := by
  intro hall
  have hboot : boot.Listed [] := ⟨rfl, List.nodup_nil⟩
  have hregistered : (boot.keyboardDriverRegister 1).Listed [1] := hboot.register (by decide) nofun
  have hrun : Run DriverStep boot [.register 1, .register 1] ((boot.keyboardDriverRegister 1).keyboardInit 1) :=
    .cons (.register _ _) (.single (.register _ _))
  obtain ⟨ys, hys⟩ := ((hall boot [.register 1, .register 1] rfl _ List.prefix_rfl).2 _ hrun).listed
  exact keyboardInit_listed hregistered List.mem_cons_self ys hys

end Drivers
end HeroOS
