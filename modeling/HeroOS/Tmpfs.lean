import HeroOS.Vfs
import HeroOS.Word

/-! # The in-memory file system

`fs/tmpfs/tmpfs.c`, and the functions of `kernel/fs/vfs.c` that call it on a tmpfs root.  Inodes are
objects of a store; `live` says which of them are allocated, so that a freed inode may be handed
out again by a later `kcalloc`.  The data buffer of an inode is reachable through that inode only
and is kept in it as a function from offsets to bytes, an offset standing for an address modulo
`2 ^ 64`; it starts out, and grows, with whatever the heap held.

The outcome of the allocators is an argument of the calls that use them: the object that `kcalloc`
returns, the block that `krealloc` returns. -/

namespace HeroOS

open CString Word

/-- `TMPFS_MAX_CHILDREN` -/
def TMPFS_MAX_CHILDREN : ℕ := 64

/-- `tmpfs_inode_t` with the fields of its `vfs_node_t` that are used; the default is a zeroed
block. -/
structure Inode where
  name : List UInt8 := []
  type : ℕ := 0
  inode : ℕ := 0
  size : ℕ := 0
  mode : ℕ := 0
  refCount : ℕ := 0
  data : Option Buf := none
  capacity : ℕ := 0
  children : ℕ → ℕ := fun _ => 0
  childCount : ℕ := 0
  inodeNo : ℕ := 0

/-- `vfs_dirent_t` -/
structure Dirent where
  inode : ℕ
  recLen : ℕ
  nameLen : ℕ
  type : ℕ
  name : Buf

/-- `memcpy(d + off, src, |src|)`, addresses modulo `2 ^ 64`. -/
def memcpyTo (d : Buf) (off : ℕ) (src : List UInt8) : Buf :=
  fun j => if wsub j off < src.length then src.getD (wsub j off) 0 else d j

namespace Inode

/-- `tmpfs_read`: the returned value and the bytes copied to the caller. -/
def tmpfsRead (node : Inode) (offset : ℤ) (size : ℕ) : ℤ × List UInt8 :=
  match node.data with
  | none => (0, [])
  | some data =>
      if toU64 offset ≥ node.size then (0, [])
      else
        let avail := node.size - toU64 offset
        let toRead := min size avail
        (toS64 toRead, (List.range toRead).map (fun i => data (toU64 offset + i)))

/-- The part of `tmpfs_write` after the buffer is large enough. -/
def store (node : Inode) (offset : ℤ) (buf : List UInt8) (newEnd : ℕ) : Inode :=
  { node with
    data := node.data.map (fun d => memcpyTo d (toU64 offset) buf)
    size := if newEnd > node.size then newEnd else node.size }

/-- `tmpfs_write`; `krealloc n` is the block that `krealloc(inode->data, n)` returns. -/
def tmpfsWrite (node : Inode) (krealloc : ℕ → Option Buf) (offset : ℤ) (buf : List UInt8) : Inode × ℤ :=
  let newEnd := wadd (toU64 offset) buf.length
  if newEnd > node.capacity then
    let newCap := alignUp newEnd 512
    match krealloc newCap with
    | none => (node, -12)
    | some newData =>
        ({ node with data := some newData, capacity := newCap }.store offset buf newEnd, toS64 buf.length)
  else (node.store offset buf newEnd, toS64 buf.length)

/-- The loop of `tmpfs_unlink` that closes the gap at `j`, `n` entries to go. -/
def shiftLoop : ℕ → ℕ → (ℕ → ℕ) → (ℕ → ℕ)
  | 0, _, children => children
  | n + 1, j, children => shiftLoop n (j + 1) (Function.update children j (children (j + 1)))

end Inode

/-- The inodes, the inode counter and the root that is mounted as `vfs_root`. -/
structure Tmpfs where
  inodes : ℕ → Inode
  live : ℕ → Bool
  inodeCounter : ℕ
  root : ℕ

namespace Tmpfs

/-- The root inode that `tmpfs_mount` fills in. -/
def rootInode (counter : ℕ) : Inode :=
  { name := [0x74, 0x6D, 0x70, 0x66, 0x73], type := VFS_DIRECTORY, mode := 0o755, inode := counter,
    inodeNo := counter }

/-- `tmpfs_mount`, with the inode counter at `counter` and `root` returned by `kcalloc`. -/
def tmpfsMount (counter root : ℕ) : Tmpfs where
  inodes := Function.update (fun _ => {}) root (rootInode counter)
  live := fun p => p = root
  inodeCounter := wadd counter 1
  root := root

/-! ### Directories -/

/-- `tmpfs_readdir` -/
def tmpfsReaddir (fs : Tmpfs) (node index : ℕ) (dirent : Dirent) : ℤ × Dirent :=
  if index ≥ (fs.inodes node).childCount then (-1, dirent)
  else
    let child := fs.inodes ((fs.inodes node).children index)
    (0, { dirent with
      name := strncpy dirent.name child.name VFS_NAME_MAX
      inode := child.inode
      type := child.type % 2 ^ 8 })

/-- The slot of the first child with the given name. -/
def findSlot (fs : Tmpfs) (node : ℕ) (name : Buf) : Option ℕ :=
  (List.range (fs.inodes node).childCount).find?
    (fun i => strcmpEq (fs.inodes ((fs.inodes node).children i)).name name)

/-- `tmpfs_finddir` -/
def tmpfsFinddir (fs : Tmpfs) (node : ℕ) (name : Buf) : Option ℕ :=
  (fs.findSlot node name).map (fs.inodes node).children

/-- The inode that `tmpfs_mkdir` fills in. -/
def newInode (fs : Tmpfs) (name : List UInt8) (mode : ℕ) : Inode :=
  { name := name.take VFS_NAME_MAX, type := VFS_DIRECTORY, mode := mode, inode := fs.inodeCounter,
    inodeNo := fs.inodeCounter }

/-- Append a child to a directory. -/
def addChild (fs : Tmpfs) (parent child : ℕ) : Tmpfs :=
  { fs with inodes := Function.update fs.inodes parent { fs.inodes parent with
      children := Function.update (fs.inodes parent).children (fs.inodes parent).childCount child
      childCount := (fs.inodes parent).childCount + 1 } }

/-- `tmpfs_mkdir`; `child` is the object that `kcalloc` returns. -/
def tmpfsMkdir (fs : Tmpfs) (parent : ℕ) (name : List UInt8) (mode : ℕ) (child : Option ℕ) : Tmpfs × ℤ :=
  if (fs.inodes parent).childCount ≥ TMPFS_MAX_CHILDREN then (fs, -28)
  else
    match child with
    | none => (fs, -12)
    | some child =>
        let fs := { fs with
          inodes := Function.update fs.inodes child (fs.newInode name mode)
          live := Function.update fs.live child true
          inodeCounter := wadd fs.inodeCounter 1 }
        (fs.addChild parent child, 0)

/-- `kfree(victim->data); kfree(victim)` -/
def freeInode (fs : Tmpfs) (victim : ℕ) : Tmpfs :=
  { fs with
    live := Function.update fs.live victim false
    inodes := Function.update fs.inodes victim { fs.inodes victim with data := none } }

/-- Remove the entry in slot `i` of a directory. -/
def removeSlot (fs : Tmpfs) (parent i : ℕ) : Tmpfs :=
  { fs with inodes := Function.update fs.inodes parent { fs.inodes parent with
      children := Inode.shiftLoop ((fs.inodes parent).childCount - 1 - i) i (fs.inodes parent).children
      childCount := (fs.inodes parent).childCount - 1 } }

/-- `tmpfs_unlink` -/
def tmpfsUnlink (fs : Tmpfs) (parent : ℕ) (name : List UInt8) : Tmpfs × ℤ :=
  match fs.findSlot parent (ofList name) with
  | none => (fs, -2)
  | some i => ((fs.freeInode ((fs.inodes parent).children i)).removeSlot parent i, 0)

/-! ### The calls of the virtual file system -/

/-- `vfs_resolve_path` on the mounted root. -/
def resolve (fs : Tmpfs) (stale : Buf) (path : List UInt8) : Except Halt (Option ℕ) :=
  Vfs.vfsResolvePath fs.tmpfsFinddir (some fs.root) stale path

/-- `vfs_mkdir`; `stale` and `stale'` are the bytes that the buffers of `vfs_mkdir` and
`vfs_resolve_path` held before. -/
def vfsMkdir (fs : Tmpfs) (stale stale' : Buf) (path : List UInt8) (mode : ℕ) (child : Option ℕ) :
    Except Halt (Tmpfs × ℤ) := do
  let dir ← Vfs.vfsPathDirname stale path
  match ← fs.resolve stale' dir with
  | none => .ok (fs, -2)
  | some parent => .ok (fs.tmpfsMkdir parent (Vfs.vfsPathBasename path) mode child)

/-- `vfs_unlink` -/
def vfsUnlink (fs : Tmpfs) (stale stale' : Buf) (path : List UInt8) : Except Halt (Tmpfs × ℤ) := do
  let dir ← Vfs.vfsPathDirname stale path
  match ← fs.resolve stale' dir with
  | none => .ok (fs, -2)
  | some parent => .ok (fs.tmpfsUnlink parent (Vfs.vfsPathBasename path))

/-- `vfs_readdir` -/
def vfsReaddir (fs : Tmpfs) (dir index : ℕ) (dirent : Dirent) : Option ℕ × Dirent :=
  let dirent := (fs.tmpfsReaddir dir index dirent).2
  (fs.tmpfsFinddir dir dirent.name, dirent)

/-- The loop of `builtin_ls` from `idx` on: the entries it reports, each as the bytes of the name
in `dirent` when it is printed and the node that `vfs_readdir` returned. -/
def lsLoop (fs : Tmpfs) (dir : ℕ) : ℕ → ℕ → Dirent → Except Halt (List (Buf × ℕ))
  | 0, _, _ => .error .outOfFuel
  | fuel + 1, idx, dirent =>
      match fs.vfsReaddir dir idx dirent with
      | (none, _) => .ok []
      | (some node, dirent) => do
          let rest ← lsLoop fs dir fuel ((idx + 1) % 2 ^ 32) dirent
          .ok ((dirent.name, node) :: rest)

end Tmpfs
end HeroOS
