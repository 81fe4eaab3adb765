import RetroBSD.ImageNames

/-!
# Requests to a mounted image

The requests of `tools/fsutil/mount.c` that change names or link counts, as far as they
concern the inodes: owners, times and device numbers are left out, and so are requests that
only read. A request gets a `Supply` for each call that can take an inode or a block.
-/

namespace RetroBSD.Fsutil

open LittleEndian

inductive Errno
  | eperm
  | enoent
  | eio
  | eexist
  | enotdir
  | eisdir
  | einval
  | enotempty
  deriving DecidableEq

/-- What a request returns, with no error for 0, and the image after it. -/
abbrev Reply := Option Errno × Volume

def noSupply : Supply := ⟨none, none, none⟩

/-- What `strrchr` leaves of a path: all in front of the last slash. -/
def parentPath (path : List UInt8) : List UInt8 := ((path.reverse.dropWhile (· ≠ 47)).drop 1).reverse

def File.linkMore (f : File) : File := { f with nlink := (f.nlink + 1) % 2 ^ 16 }

def File.linkLess (f : File) : File := { f with nlink := (f.nlink + (2 ^ 16 - 1)) % 2 ^ 16 }

/-- `fs_inode_truncate` as far as the inode goes, without the pointers that it may leave (see
`CutOk`). Device files are left alone. -/
def File.truncated (f : File) (size : ℕ) : File :=
  if fileType f.mode = modeFchr ∨ fileType f.mode = modeFblk then f else { f with size }

namespace Volume

variable (v : Volume)

def lookup (path : List UInt8) : Result := v.byName noSupply .lookup path

def deleteAndSave (path : List UInt8) : Reply :=
  let r := v.byName noSupply .delete path
  if r.code = 0 then (some .eio, r.vol) else (none, r.vol.save r.number r.inode)

def opUnlink (path : List UInt8) : Reply :=
  let r := v.lookup path
  if r.code = 0 then (some .enoent, v)
  else if r.inode.isDir then (some .eisdir, v)
  else v.deleteAndSave path

def opRmdir (path : List UInt8) : Reply :=
  let r := v.lookup path
  if r.code = 0 then (some .enoent, v)
  else if ¬r.inode.isDir then (some .enotdir, v)
  else if 2 < r.inode.nlink then (some .enotempty, v)
  else
    let parent := v.lookup (parentPath path)
    if parent.code = 0 then (some .enoent, v)
    else
      match (v.save r.number r.inode.linkLess).deleteAndSave path with
      | (some e, v) => (some e, v)
      | (none, v) =>
        if ¬v.Valid parent.number then (some .eio, v)
        else (none, v.save parent.number (v.file parent.number).linkLess)

def opMkdir (path : List UInt8) (mode : ℕ) (sup dots : Supply) : Reply :=
  let parent := v.lookup (parentPath path)
  if parent.code = 0 then (some .enoent, v)
  else
    let r := v.byName sup (.create (mode &&& 0o7777 ||| modeFdir)) path
    if r.code = 0 then (some .enoent, r.vol)
    else if r.code = 1 then (some .eexist, r.vol)
    else
      let l := r.vol.byName dots (.link parent.number) (path ++ [47, 46, 46])
      if l.code = 0 then (some .eio, l.vol)
      else if ¬l.vol.Valid parent.number then (some .eio, l.vol)
      else (none, l.vol.save parent.number (l.vol.file parent.number).linkMore)

def opLink (path newpath : List UInt8) (sup : Supply) : Reply :=
  let source := v.lookup path
  if source.code = 0 then (some .enoent, v)
  else if source.inode.isDir then (some .eperm, v)
  else
    let t := v.byName sup (.link source.number) newpath
    if t.code = 0 then (some .eio, t.vol)
    else (none, t.vol.save source.number source.inode.linkMore)

def opRename (path newpath : List UInt8) (sup : Supply) : Reply :=
  let source := v.lookup path
  if source.code = 0 then (some .enoent, v)
  else
    let t := (v.save source.number source.inode.linkMore).byName sup (.link source.number) newpath
    if t.code = 0 then (some .eio, t.vol) else t.vol.deleteAndSave path

def opMknod (path : List UInt8) (mode : ℕ) (sup : Supply) : Reply :=
  if (v.lookup path).code ≠ 0 then (some .eexist, v)
  else if fileType mode = modeFreg ∨ fileType mode = modeFchr ∨ fileType mode = modeFblk then
    let r := v.byName sup (.create (mode &&& 0o7777 ||| fileType mode)) path
    if r.code = 0 then (some .eio, r.vol) else (none, r.vol.save r.number r.inode)
  else (some .einval, v)

/-- `op_create`. A file that is there already is emptied. -/
def opCreate (path : List UInt8) (mode : ℕ) (sup : Supply) : Reply :=
  let r := v.byName sup (.create (mode &&& 0o7777)) path
  if r.code = 0 then (some .eio, r.vol)
  else if r.inode.isDir then (some .eisdir, r.vol)
  else (none, r.vol.save r.number (r.inode.truncated 0))

def opSymlink (text newpath : List UInt8) (sup : Supply) (fresh : Option Memory) : Reply :=
  if (v.lookup newpath).code ≠ 0 then (some .eexist, v)
  else
    let r := v.byName sup (.create (0o777 ||| modeFlnk)) newpath
    if r.code = 0 then (some .eio, r.vol)
    else
      match r.inode.write fresh 0 text with
      | none => (some .eio, r.vol)
      | some inode => (none, r.vol.set r.number inode)

def opTruncate (path : List UInt8) (newsize : ℕ) : Reply :=
  let r := v.lookup path
  if r.code = 0 ∨ r.inode.isDir then (some .enoent, v)
  else if fileType r.inode.mode ≠ modeFreg then (some .einval, v)
  else (none, v.save r.number (r.inode.truncated newsize))

end Volume

inductive Request
  | mkdir (path : List UInt8) (mode : ℕ) (sup dots : Supply)
  | mknod (path : List UInt8) (mode : ℕ) (sup : Supply)
  | create (path : List UInt8) (mode : ℕ) (sup : Supply)
  | link (path newpath : List UInt8) (sup : Supply)
  | unlink (path : List UInt8)
  | rmdir (path : List UInt8)
  | rename (path newpath : List UInt8) (sup : Supply)
  | symlink (text newpath : List UInt8) (sup : Supply) (fresh : Option Memory)
  | truncate (path : List UInt8) (newsize : ℕ)

def Request.run (v : Volume) : Request → Reply
  | mkdir path mode sup dots => v.opMkdir path mode sup dots
  | mknod path mode sup => v.opMknod path mode sup
  | create path mode sup => v.opCreate path mode sup
  | link path newpath sup => v.opLink path newpath sup
  | unlink path => v.opUnlink path
  | rmdir path => v.opRmdir path
  | rename path newpath sup => v.opRename path newpath sup
  | symlink text newpath sup fresh => v.opSymlink text newpath sup fresh
  | truncate path newsize => v.opTruncate path newsize

end RetroBSD.Fsutil
