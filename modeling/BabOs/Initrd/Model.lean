import BabOs.Library.Strings

/-!
# The initial ramdisk

This module embeds `initrd.c` and the calls of `vfs.c` that reach it.  The
nodes, the headers of the image and the directory entry lie in memory, at the
offsets that the compiler gives their fields; a pointer is an address, and `0`
is `NULL`.  Objects do not reach past the end of the address space.
-/

namespace BabOs.Initrd

open Memory

/-! ## Layouts -/

-- `vfs_node_t`, after `name` at `0`.
namespace VfsNode

def mask : ℕ := 128
def uid : ℕ := 132
def gid : ℕ := 136
def flags : ℕ := 140
def inode : ℕ := 144
def length : ℕ := 148
def impl : ℕ := 152
def read : ℕ := 156
def write : ℕ := 160
def «open» : ℕ := 164
def close : ℕ := 168
def readdir : ℕ := 172
def finddir : ℕ := 176
def ptr : ℕ := 180

/-- `sizeof(vfs_node_t)` -/
def size : ℕ := 184

end VfsNode

-- `initrd_file_header_t`, after `magic` at `0`.
namespace FileHeader

def name : ℕ := 4
def offset : ℕ := 68
def length : ℕ := 72

/-- `sizeof(initrd_file_header_t)` -/
def size : ℕ := 76

end FileHeader

-- `struct vfs_dirent`, after `name` at `0`.
namespace Dirent

def inode : ℕ := 128

/-- `sizeof(struct vfs_dirent)` -/
def size : ℕ := 132

end Dirent

def vfsFile : ℕ := 1

def vfsDirectory : ℕ := 2

def devName : List UInt8 := [0x64, 0x65, 0x76]

def initrdName : List UInt8 := [0x69, 0x6E, 0x69, 0x74, 0x72, 0x64]

/-- The addresses that the linker gives to `dirent` and to the functions. -/
structure Link where
  dirent : ℕ
  initrdRead : ℕ
  initrdReaddir : ℕ
  initrdFinddir : ℕ
  dirent_pos : 0 < dirent
  read_pos : 0 < initrdRead
  read_lt : initrdRead < 2 ^ 32
  readdir_pos : 0 < initrdReaddir
  readdir_lt : initrdReaddir < 2 ^ 32
  finddir_pos : 0 < initrdFinddir
  finddir_lt : initrdFinddir < 2 ^ 32

/-- The variables of `initrd.c`, the memory, and the blocks that `initrd_read`
has copied from. -/
structure State where
  mem : Memory
  header : ℕ
  fileHeaders : ℕ
  root : ℕ
  dev : ℕ
  rootNodes : ℕ
  nrootNodes : ℕ
  loads : List (ℕ × ℕ)

/-- `file_headers[i]` -/
def State.fileHeader (s : State) (i : ℕ) : ℕ :=
  uint32 (s.fileHeaders + FileHeader.size * i)

def State.node (s : State) (i : ℕ) : ℕ :=
  uint32 (s.rootNodes + VfsNode.size * i)

/-! ## The operations of the ramdisk -/

def initrdRead (node offset size buffer : ℕ) (s : State) : ℕ × State :=
  let header := s.fileHeader (s.mem.load32 (node + VfsNode.inode))
  let start := s.mem.load32 (header + FileHeader.offset)
  let length := s.mem.load32 (header + FileHeader.length)
  if length < offset then (0, s)
  else
    let size :=
      if length < uint32 (offset + size) then sub32 length offset else size
    let src := uint32 (start + offset)
    (size, { s with
      mem := s.mem.copy buffer src size
      loads := (src, size) :: s.loads })

section Directories

variable (fuel : ℕ) (link : Link)

/-- `initrd_readdir`; the index is unsigned. -/
def initrdReaddir (node index : ℕ) (s : State) : Option (ℕ × State) :=
  if node = s.root ∧ index = 0 then do
    let m ← strcpy fuel link.dirent (.lit devName) s.mem
    some (link.dirent,
      { s with mem := m.store32 (link.dirent + Dirent.inode) 0 })
  else if node = s.root ∧ sub32 index 1 < s.nrootNodes then do
    let file := s.node (sub32 index 1)
    let m ← strcpy fuel link.dirent (.ptr file) s.mem
    some (link.dirent,
      { s with
        mem := m.store32 (link.dirent + Dirent.inode)
          (m.load32 (file + VfsNode.inode)) })
  else some (0, s)

/-- The loop of `initrd_finddir`, for the `count` nodes from `i` on. -/
def findNode (name : Str) (s : State) : (count i : ℕ) → Option ℕ
  | 0, _ => some 0
  | count + 1, i => do
      let order ← strcmp fuel name (.ptr (s.node i)) s.mem
      if order = 0 then some (s.node i) else findNode name s count (i + 1)

/-- `nroot_nodes` as a signed number of rounds. -/
def State.rounds (s : State) : ℕ :=
  if s.nrootNodes < 2 ^ 31 then s.nrootNodes else 0

def initrdFinddir (node : ℕ) (name : Str) (s : State) : Option ℕ := do
  let dev ←
    if node = s.root then
      (strcmp fuel name (.lit devName) s.mem).map (decide <| · = 0)
    else some false
  if dev then some s.dev else findNode fuel name s s.rounds 0

/-! ## The calls -/

/-- `vfs_read`; `none` is a call of a function outside the ramdisk. -/
def vfsRead (node offset size buffer : ℕ) (s : State) : Option (ℕ × State) :=
  let f := s.mem.load32 (node + VfsNode.read)
  if f = 0 then some (0, s)
  else if f = link.initrdRead then
    some (initrdRead node offset size buffer s)
  else none

def vfsReaddir (node index : ℕ) (s : State) : Option (ℕ × State) :=
  let f := s.mem.load32 (node + VfsNode.readdir)
  if s.mem.load32 (node + VfsNode.flags) &&& 0x07 = vfsDirectory ∧ f ≠ 0 then
    if f = link.initrdReaddir then initrdReaddir fuel link node index s
    else none
  else some (0, s)

def vfsFinddir (node : ℕ) (name : Str) (s : State) : Option ℕ :=
  let f := s.mem.load32 (node + VfsNode.finddir)
  if s.mem.load32 (node + VfsNode.flags) &&& 0x07 = vfsDirectory ∧ f ≠ 0 then
    if f = link.initrdFinddir then initrdFinddir fuel node name s else none
  else some 0

/-! ## Mounting -/

/-- Assignments to fields of the object at `p`. -/
def storeFields (p : ℕ) (fields : List (ℕ × ℕ)) (m : Memory) : Memory :=
  fields.foldl (fun m field => m.store32 (p + field.1) field.2) m

/-- The assignments to the fields of a directory. -/
def directoryFields : List (ℕ × ℕ) :=
  [(VfsNode.length, 0), (VfsNode.inode, 0), (VfsNode.gid, 0), (VfsNode.uid, 0),
    (VfsNode.mask, 0), (VfsNode.flags, vfsDirectory), (VfsNode.read, 0),
    (VfsNode.write, 0), (VfsNode.open, 0), (VfsNode.close, 0),
    (VfsNode.readdir, link.initrdReaddir),
    (VfsNode.finddir, link.initrdFinddir), (VfsNode.ptr, 0), (VfsNode.impl, 0)]

def initDirectory (p : ℕ) (name : List UInt8) (m : Memory) : Option Memory :=
  (strcpy fuel p (.lit name) m).map (storeFields p (directoryFields link))

/-- The last assignments to the fields of the node of a file. -/
def fileFields (i length : ℕ) : List (ℕ × ℕ) :=
  [(VfsNode.length, length), (VfsNode.inode, i), (VfsNode.flags, vfsFile),
    (VfsNode.read, link.initrdRead), (VfsNode.write, 0), (VfsNode.readdir, 0),
    (VfsNode.finddir, 0), (VfsNode.open, 0), (VfsNode.close, 0),
    (VfsNode.impl, 0)]

/-- The body of the loop over the files. -/
def mountFile (s : State) (i : ℕ) (m : Memory) : Option Memory := do
  let header := s.fileHeader i
  let node := s.node i
  let m := m.store32 (header + FileHeader.offset)
    (uint32 (m.load32 (header + FileHeader.offset) + s.header))
  let m ← strcpy fuel node (.ptr (header + FileHeader.name)) m
  let m := storeFields node
    [(VfsNode.gid, 0), (VfsNode.uid, 0), (VfsNode.mask, 0)] m
  let length := m.load32 (header + FileHeader.length)
  some (storeFields node (fileFields link i length) m)

/-- The loop over the files, from `i` on. -/
def mountFiles (s : State) : (rounds i : ℕ) → Memory → Option Memory
  | 0, _, _ => none
  | rounds + 1, i, m =>
      if i < m.load32 s.header then
        (mountFile fuel link s i m).bind (mountFiles s rounds (i + 1))
      else some m

/-- `kmalloc`: the block and the memory afterwards. -/
abbrev Kmalloc := (size : ℕ) → Memory → ℕ × Memory

def initialiseInitrd (kmalloc : Kmalloc) (location : ℕ) (m : Memory) :
    Option (ℕ × State) := do
  let (root, m) := kmalloc VfsNode.size m
  let m ← initDirectory fuel link root initrdName m
  let (dev, m) := kmalloc VfsNode.size m
  let m ← initDirectory fuel link dev devName m
  let (rootNodes, m) :=
    kmalloc (uint32 (VfsNode.size * m.load32 location)) m
  let s : State :=
    { mem := m
      header := location
      fileHeaders := uint32 (location + 4)
      root := root
      dev := dev
      rootNodes := rootNodes
      nrootNodes := m.load32 location
      loads := [] }
  let m ← mountFiles fuel link s fuel 0 m
  some (root, { s with mem := m })

end Directories

end BabOs.Initrd
