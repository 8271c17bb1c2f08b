import HeroOS.CString

/-! # Paths

The path functions of `kernel/fs/vfs.c`, over any tree of nodes with a lookup `finddir`.  They copy
the path into a buffer of 4096 bytes on the stack, which holds arbitrary bytes before; `strncpy`
leaves the last byte as it was, so that a long path may end up without a terminator. -/

namespace HeroOS

open CString

/-- `VFS_NAME_MAX` -/
def VFS_NAME_MAX : ℕ := 255
/-- `VFS_PATH_MAX` -/
def VFS_PATH_MAX : ℕ := 4096
/-- `VFS_DIRECTORY` -/
def VFS_DIRECTORY : ℕ := 2

/-- The character `/`. -/
def SLASH : UInt8 := 0x2F
/-- The character `.`. -/
def DOT : UInt8 := 0x2E

namespace Vfs

/-- `strchr(tok, '/')` at offset `i` of a buffer with `n` more bytes: the bytes before the slash or
terminator, and the offset behind the slash. -/
def component (buf : Buf) : ℕ → ℕ → Except Halt (List UInt8 × Option ℕ)
  | 0, _ => .error .overrun
  | n + 1, i =>
      if buf i = 0 then .ok ([], none)
      else if buf i = SLASH then .ok ([], some (i + 1))
      else do
        let r ← component buf n (i + 1)
        .ok (buf i :: r.1, r.2)

variable {ν : Type} (finddir : ν → Buf → Option ν)

/-- The loop of `vfs_resolve_path` with `tok` at offset `tok` of the buffer. -/
def resolveLoop (buf : Buf) : ℕ → ν → ℕ → Except Halt (Option ν)
  | 0, _, _ => .error .outOfFuel
  | fuel + 1, node, tok =>
      if tok ≥ VFS_PATH_MAX then .error .overrun
      else if buf tok = 0 then .ok (some node)
      else do
        let r ← component buf (VFS_PATH_MAX - tok) tok
        match finddir node (ofList r.1) with
        | none => .ok none
        | some node' =>
            match r.2 with
            | none => .ok (some node')
            | some tok' => resolveLoop buf fuel node' tok'

/-- `vfs_resolve_path`; `stale` are the bytes that the buffer on the stack held before. -/
def vfsResolvePath (vfsRoot : Option ν) (stale : Buf) (path : List UInt8) : Except Halt (Option ν) :=
  match vfsRoot with
  | none => .ok none
  | some root =>
      if path = [SLASH] then .ok (some root)
      else
        let buf := strncpy stale path (VFS_PATH_MAX - 1)
        resolveLoop finddir buf (VFS_PATH_MAX + 1) root (if buf 0 = SLASH then 1 else 0)

/-- `vfs_path_dirname(path, buf, VFS_PATH_MAX)`: the string then in `buf`. -/
def vfsPathDirname (stale : Buf) (path : List UInt8) : Except Halt (List UInt8) := do
  let s ← cstr (strncpy stale path (VFS_PATH_MAX - 1)) VFS_PATH_MAX
  match strrchr SLASH s with
  | none => .ok [DOT]
  | some 0 => .ok [SLASH]
  | some i => .ok (s.take i)

/-- `vfs_path_basename(path, buf, VFS_PATH_MAX)`: the string then in `buf`. -/
def vfsPathBasename (path : List UInt8) : List UInt8 :=
  (match strrchr SLASH path with
    | none => path
    | some i => path.drop (i + 1)).take (VFS_PATH_MAX - 1)

end Vfs
end HeroOS
