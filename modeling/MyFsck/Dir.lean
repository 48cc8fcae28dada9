import MyFsck.DataBlock

/-! Directory entries and the scan of a directory block (`dir.c`). -/
namespace MyFsck

open ByteBuffer ErrorState

def dirType : ℕ := 2
def regType : ℕ := 1
def dirEntryPrefixLen : ℕ := 8
/-- The bytes `memcpy` copies out of a found entry: `sizeof(struct ext2_inode)`. -/
def sizeofInode : ℕ := 128

/-- `name` is the entry's name as its readers take it, up to the first zero byte. -/
structure DirEntry where
  inode : ℕ
  recLen : ℕ
  nameLen : ℕ
  fileType : ℕ
  name : List Byte
  deriving DecidableEq

def dirIsDir (entry : DirEntry) : Bool := entry.fileType == dirType

/-- `strncpy` out of a block: it reads up to the first zero byte. -/
def copyName (dir_block : Buf) (pos : ℕ) : ℕ → Option (List Byte)
  | 0 => some []
  | n+1 => do
    let c ← dir_block.load pos
    if c = 0 then some [] else (copyName dir_block (pos+1) n).map (c :: ·)

/-- `none` inside is the return value -1, for an entry whose inode number is 0. -/
def readDirEntryInBlock (dir_block : Buf) (offset : ℕ) : Option (Option DirEntry) := do
  let inode ← parse dir_block offset 4
  if inode = 0 then pure none
  else
    let rec_len ← parse dir_block (offset+4) 2
    let name_len ← parse dir_block (offset+6) 1
    let file_type ← parse dir_block (offset+7) 1
    let name ← copyName dir_block (offset+8) name_len
    pure (some ⟨inode,rec_len,name_len,file_type,name⟩)

section Loops

variable {σ : Type}

/-- `for (i = 0; i < EXT2_N_BLOCKS; ++i)` over the block pointers of an inode, with its `break`
at the first pointer that is 0. -/
def forBlocks (body : ℕ → ℕ → σ → Fsck σ) : ℕ → List ℕ → σ → Fsck σ
  | _, [], s => pure s
  | i, block_id::rest, s =>
    if block_id = 0 then pure s
    else do
      let s ← body i block_id s
      forBlocks body (i+1) rest s

/-- `while (offset < block_size)` over the entries of a block, with its `break` at an entry
whose inode number is 0. `block` is the array scanned, which the body may change. Every turn
moves `offset` by the entry's `rec_len`, so that as many turns as the block has bytes are only
used up when some `rec_len` is 0, and then the loop of the program does not end. -/
def scanEntries (block_size : ℕ) (block : σ → Buf) (body : ℕ → ℕ → DirEntry → σ → Fsck σ) :
    ℕ → (offset count : ℕ) → σ → Fsck σ
  | 0, offset, _, s => if offset < block_size then throw .outOfFuel else pure s
  | turns+1, offset, count, s =>
    if offset < block_size then do
      match ← inBounds (readDirEntryInBlock (block s) offset) with
      | none => pure s
      | some entry =>
        let s ← body count offset entry s
        scanEntries block_size block body turns (offset+entry.recLen) (count+1) s
    else pure s

end Loops

/-- The scan of `search_dir_entry`; it stops at the first entry with the name. -/
def findName (block_size : ℕ) (dir_block : Buf) (name : List Byte) :
    ℕ → (offset : ℕ) → Fsck (Option DirEntry)
  | 0, offset => if offset < block_size then throw .outOfFuel else pure none
  | turns+1, offset =>
    if offset < block_size then do
      match ← inBounds (readDirEntryInBlock dir_block offset) with
      | none => pure none
      | some entry =>
        if entry.name = name then
          pure (some { entry with name := entry.name.take (sizeofInode-dirEntryPrefixLen) })
        else findName block_size dir_block name turns (offset+entry.recLen)
    else pure none

/-- `none` is the return value -1. The `return` stands inside the loop over the blocks, so that
only the first block is searched; without a first block nothing is returned at all. -/
def searchDirEntry (g : Globals) (inode : Inode) (name : List Byte) : Fsck (Option DirEntry) :=
  match inode.iBlock with
  | [] => throw .undefined
  | block_id::_ =>
    if block_id = 0 then throw .undefined
    else do
      let dir_block ← g.block block_id
      findName g.blockSize dir_block name g.blockSize 0

end MyFsck
