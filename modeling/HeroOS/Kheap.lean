import HeroOS.Memory
import HeroOS.Pmm
import HeroOS.Ledger

/-! # The kernel heap

`kernel/mm/kheap.c`: a first-fit free list over pages of the physical memory manager.  Every block
carries an in-band header (magic, size, free flag, list links) and a footer (magic, back-pointer),
read and written here in byte-addressed memory at the offsets of the C structures, so that a
misplaced header or footer would overwrite its neighbours as it does in the kernel.

Size computations wrap modulo `2 ^ 64`.  The list walks and the retry of `kmalloc` take fuel; a
result is only reported when the walk has reached the end of the list. -/

namespace HeroOS

open Word

/-! ### Block layout -/

/-- `HEAP_MAGIC_FREE` -/
def HEAP_MAGIC_FREE : ℕ := 0xDEADBEEF
/-- `HEAP_MAGIC_USED` -/
def HEAP_MAGIC_USED : ℕ := 0xCAFEBABE
/-- `HEAP_MIN_SIZE`: 64 KiB initial heap. -/
def HEAP_MIN_SIZE : ℕ := PAGE_SIZE * 16
/-- `sizeof(alloc_header_t)`: magic at 0, size at 8, free at 16, prev at 24, next at 32. -/
def HEADER_SIZE : ℕ := 40
/-- `sizeof(alloc_footer_t)`: magic at 0, header at 8. -/
def FOOTER_SIZE : ℕ := 16
/-- `OVERHEAD` -/
def OVERHEAD : ℕ := HEADER_SIZE + FOOTER_SIZE

/-- The magic number of a free or used block. -/
def blockMagic (free : Bool) : ℕ := if free then HEAP_MAGIC_FREE else HEAP_MAGIC_USED

namespace Mem

/-- `h->magic` -/
def hdrMagic (m : Mem) (h : ℕ) : ℕ := m.read64 h
/-- `h->size` -/
def hdrSize (m : Mem) (h : ℕ) : ℕ := m.read64 (h + 8)
/-- `h->free`, as a truth value. -/
def hdrFree (m : Mem) (h : ℕ) : Bool := m (h + 16) != 0
/-- `h->prev` -/
def hdrPrev (m : Mem) (h : ℕ) : ℕ := m.read64 (h + 24)
/-- `h->next` -/
def hdrNext (m : Mem) (h : ℕ) : ℕ := m.read64 (h + 32)
/-- `h->prev = p` -/
def setPrev (m : Mem) (h p : ℕ) : Mem := m.write64 (h + 24) p
/-- `h->next = n` -/
def setNext (m : Mem) (h n : ℕ) : Mem := m.write64 (h + 32) n

/-- `get_footer` -/
def getFooter (m : Mem) (h : ℕ) : ℕ := wadd (wadd h HEADER_SIZE) (m.hdrSize h)

/-- `write_block` -/
def writeBlock (m : Mem) (h size : ℕ) (free : Bool) : Mem :=
  let m := m.write64 h (blockMagic free)
  let m := m.write64 (h + 8) size
  let m := m.write8 (h + 16) (if free then 1 else 0)
  let f := m.getFooter h
  let m := m.write64 f (blockMagic free)
  m.write64 (f + 8) h

/-! ### Release -/

/-- The two merges of `kfree` have the same form: `a` absorbs its list successor `b`. -/
def coalesce (m : Mem) (a b : ℕ) : Mem :=
  let m := m.write64 (a + 8) (wadd (m.hdrSize a) (wadd OVERHEAD (m.hdrSize b)))
  let m := m.setNext a (m.hdrNext b)
  let m := if m.hdrNext b ≠ 0 then m.setPrev (m.hdrNext b) a else m
  m.write64 (m.getFooter a + 8) a

/-- Coalesce with the next block of the list. -/
def coalesceNext (m : Mem) (h : ℕ) : Mem :=
  if m.hdrNext h ≠ 0 ∧ m.hdrFree (m.hdrNext h) then m.coalesce h (m.hdrNext h) else m

/-- Coalesce with the previous block of the list. -/
def coalescePrev (m : Mem) (h : ℕ) : Mem :=
  if m.hdrPrev h ≠ 0 ∧ m.hdrFree (m.hdrPrev h) then m.coalesce (m.hdrPrev h) h else m

/-- `kfree` -/
def kfree (m : Mem) (ptr : ℕ) : Mem :=
  if ptr = 0 then m
  else
    let h := wsub ptr HEADER_SIZE
    if m.hdrMagic h ≠ HEAP_MAGIC_USED then m
    else ((m.writeBlock h (m.hdrSize h) true).coalesceNext h).coalescePrev h

/-! ### Walks over the list -/

/-- The search loop of `kmalloc`: the first free block whose size is at least
`size + OVERHEAD`, or `0` at the end of the list. -/
def findFit (m : Mem) (size : ℕ) : ℕ → ℕ → Except Halt ℕ
  | 0, _ => .error .outOfFuel
  | fuel + 1, cur =>
      if cur = 0 then .ok 0
      else if m.hdrFree cur ∧ m.hdrSize cur ≥ wadd size OVERHEAD then .ok cur
      else findFit m size fuel (m.hdrNext cur)

/-- `while (cur->next) cur = cur->next` -/
def lastBlock (m : Mem) : ℕ → ℕ → Except Halt ℕ
  | 0, _ => .error .outOfFuel
  | fuel + 1, cur => if m.hdrNext cur = 0 then .ok cur else lastBlock m fuel (m.hdrNext cur)

/-- The body of the search loop once a block fits: split it when the remainder is large
enough, else use it whole. -/
def takeBlock (m : Mem) (cur size : ℕ) : Mem :=
  if m.hdrSize cur ≥ wadd (wadd size OVERHEAD) 32 then
    let oldSize := m.hdrSize cur
    let m := m.writeBlock cur size false
    let nextBlock := wadd (wadd (wadd cur HEADER_SIZE) size) FOOTER_SIZE
    let m := m.writeBlock nextBlock (wsub (wsub oldSize size) OVERHEAD) true
    let m := m.setPrev nextBlock cur
    let m := m.setNext nextBlock (m.hdrNext cur)
    let m := if m.hdrNext cur ≠ 0 then m.setPrev (m.hdrNext cur) nextBlock else m
    m.setNext cur nextBlock
  else m.writeBlock cur (m.hdrSize cur) false

end Mem

/-! ### Heap state -/

/-- The heap's static variables, the memory it lives in and the page allocator it draws on. -/
structure Heap where
  mem : Mem
  pmm : Pmm
  heapHead : ℕ
  heapBase : ℕ
  heapEnd : ℕ
  heapMax : ℕ
  /-- Ghost: the page runs that `heap_expand` has obtained, also those it then did not use. -/
  obtained : Ledger ℕ

namespace Heap

/-- The number of pages `heap_expand` asks for. -/
def expandPages (bytesNeeded : ℕ) : ℕ := alignUp bytesNeeded PAGE_SIZE / PAGE_SIZE

/-- Append the new free block at `block` to the list. -/
def appendBlock (fuel : ℕ) (s : Heap) (block : ℕ) : Except Halt Heap :=
  if s.heapHead = 0 then .ok { s with heapHead := block }
  else do
    let cur ← s.mem.lastBlock fuel s.heapHead
    .ok { s with mem := (s.mem.setNext cur block).setPrev block cur }

/-- `heap_expand`: `0` on success, `-1` when the heap would exceed `heap_max`.  The pages are
taken before the limit is checked. -/
def heapExpand (fuel : ℕ) (s : Heap) (bytesNeeded : ℕ) : Except Halt (Heap × ℤ) := do
  let pages := expandPages bytesNeeded
  let (pmm, newPagesPhys) ← s.pmm.pmmAllocPages pages
  let s := { s with
    pmm := pmm
    obtained := Finset.Ico (newPagesPhys / PAGE_SIZE) (newPagesPhys / PAGE_SIZE + pages) :: s.obtained }
  let newEnd := wadd s.heapEnd (wmul pages PAGE_SIZE)
  if newEnd > s.heapMax then .ok (s, -1)
  else
    let block := newPagesPhys
    let m := s.mem.writeBlock block (wsub (wmul pages PAGE_SIZE) OVERHEAD) true
    let s := { s with heapEnd := newEnd, mem := (m.setPrev block 0).setNext block 0 }
    let s ← appendBlock fuel s block
    .ok (s, 0)

/-- `kheap_init` -/
def kheapInit (fuel : ℕ) (s : Heap) (start size : ℕ) : Except Halt Heap := do
  let s := { s with heapBase := start, heapEnd := start, heapMax := wadd start size }
  let (s, r) ← s.heapExpand fuel (min HEAP_MIN_SIZE size)
  if r ≠ 0 then .error (.panic "kheap_init: failed to allocate initial heap pages") else .ok s

/-- `kmalloc` -/
def kmalloc : ℕ → Heap → ℕ → Except Halt (Heap × ℕ)
  | 0, _, _ => .error .outOfFuel
  | fuel + 1, s, size =>
      if size = 0 then .ok (s, 0)
      else do
        let size := alignUp size 16
        let cur ← s.mem.findFit size (fuel + 1) s.heapHead
        if cur ≠ 0 then .ok ({ s with mem := s.mem.takeBlock cur size }, wadd cur HEADER_SIZE)
        else
          let (s, r) ← s.heapExpand (fuel + 1) (wadd (wadd size OVERHEAD) PAGE_SIZE)
          if r = 0 then kmalloc fuel s size else .ok (s, 0)

/-- `krealloc` -/
def krealloc (fuel : ℕ) (s : Heap) (ptr newSize : ℕ) : Except Halt (Heap × ℕ) :=
  if ptr = 0 then s.kmalloc fuel newSize
  else if newSize = 0 then .ok ({ s with mem := s.mem.kfree ptr }, 0)
  else
    let h := wsub ptr HEADER_SIZE
    if s.mem.hdrSize h ≥ newSize then .ok (s, ptr)
    else do
      let (s, newPtr) ← s.kmalloc fuel newSize
      if newPtr = 0 then .ok (s, 0)
      else
        let m := s.mem.copy newPtr ptr (s.mem.hdrSize h)
        .ok ({ s with mem := m.kfree ptr }, newPtr)

end Heap
end HeroOS
