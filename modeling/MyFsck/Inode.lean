import MyFsck.SuperBlock

/-! Inodes and the inode bitmap (`inode.c`). -/
namespace MyFsck

open ByteBuffer

def inodeSize : ℕ := 128
def rootInodeNum : ℕ := 2
def ext2NdirBlocks : ℕ := 12
def ext2IndBlock : ℕ := 12
def ext2DindBlock : ℕ := 13
def ext2NBlocks : ℕ := 15
def ext2SIflnk : ℕ := 0xA000
def ext2SIfreg : ℕ := 0x8000
def ext2SIfdir : ℕ := 0x4000

structure Inode where
  iMode : ℕ
  iUid : ℕ
  iSize : ℕ
  iAtime : ℕ
  iCtime : ℕ
  iMtime : ℕ
  iDtime : ℕ
  iGid : ℕ
  iLinksCount : ℕ
  iBlocks : ℕ
  iFlags : ℕ
  iBlock : List ℕ
  deriving DecidableEq

/-- `!x` on an `int`. -/
def lnot (x : ℕ) : ℕ := if x = 0 then 1 else 0

def inodeIsDir (inode : Inode) : Bool := inode.iMode &&& 0xF000 == ext2SIfdir
def inodeIsReg (inode : Inode) : Bool := inode.iMode &&& 0xF000 == ext2SIfreg
def inodeIsLnk (inode : Inode) : Bool := inode.iMode &&& 0xF000 == ext2SIflnk
/-- `!INODE_IS_DIR(inode)`: the text of the macro has no outer parentheses, so the negation
binds to the masked mode and its result is compared with the type. -/
def notInodeIsDir (inode : Inode) : Bool := lnot (inode.iMode &&& 0xF000) == ext2SIfdir

def decodeInode (inode_table : Buf) (offset : ℕ) : Option Inode := do
  pure {
    iMode := ← parse inode_table offset 2
    iUid := ← parse inode_table (offset+2) 2
    iSize := ← parse inode_table (offset+4) 4
    iAtime := ← parse inode_table (offset+8) 4
    iCtime := ← parse inode_table (offset+12) 4
    iMtime := ← parse inode_table (offset+16) 4
    iDtime := ← parse inode_table (offset+20) 4
    iGid := ← parse inode_table (offset+24) 2
    iLinksCount := ← parse inode_table (offset+26) 2
    iBlocks := ← parse inode_table (offset+28) 4
    iFlags := ← parse inode_table (offset+32) 4
    iBlock := ← (List.range ext2NBlocks).mapM fun i => parse inode_table (offset+40+i*4) 4 }

/-- `n - 1` on a `__u32`. -/
def pred32 (n : ℕ) : ℕ := u32 (n+(2^32-1))

namespace Globals

variable (g : Globals)

def getGroupInodeBlockNum : ℕ :=
  u32 (g.superBlock.sInodesPerGroup*inodeSize + g.blockSize + (2^32-1)) / g.blockSize

def getInodeGroupNum : ℕ :=
  u32 (g.superBlock.sInodesCount + g.superBlock.sInodesPerGroup + (2^32-1)) /
    g.superBlock.sInodesPerGroup

def getGroupInodeBitmapBlockNum : ℕ :=
  let bits_num := u32 (g.superBlock.sInodesPerGroup + bitsPerByte + (2^32-1)) / bitsPerByte
  u32 (bits_num + g.blockSize + (2^32-1)) / g.blockSize

def getInodeGroupOffset (inode_num : ℕ) : ℕ := pred32 inode_num / g.superBlock.sInodesPerGroup

def getInodeOffsetInGroup (inode_num : ℕ) : ℕ := pred32 inode_num % g.superBlock.sInodesPerGroup

/-- Read `n` blocks from `start_block` on into an array of `size` bytes, one behind the other. -/
def readBlocks (start_block n size : ℕ) : Fsck Buf :=
  (List.range n).foldlM (fun buf i => do
    let b ← g.block (u32 (start_block+i))
    inBounds (buf.overlay (g.blockSize*i) b)) (Buf.zero size)

def readGroupInodeTable (block_offset : ℕ) : Fsck Buf :=
  g.readBlocks block_offset g.getGroupInodeBlockNum (u32 (g.getGroupInodeBlockNum*g.blockSize))

def readInode (inode_num : ℕ) : Fsck Inode := do
  checkDivisor g.superBlock.sInodesPerGroup
  let group_desc ← readGroupDesc g (g.getInodeGroupOffset inode_num)
  let inode_table ← g.readGroupInodeTable group_desc.bgInodeTable
  let offset := u32 (g.getInodeOffsetInGroup inode_num*inodeSize)
  inBounds (decodeInode inode_table offset)

def writeInode (inode_num links_count : ℕ) : Fsck Unit := do
  checkDivisor g.superBlock.sInodesPerGroup
  let group_desc ← readGroupDesc g (g.getInodeGroupOffset inode_num)
  let inode_table ← g.readGroupInodeTable group_desc.bgInodeTable
  let offset := u32 (g.getInodeOffsetInGroup inode_num*inodeSize)
  let index := offset/g.blockSize
  let offset_in_block := offset%g.blockSize + 26
  let inode_table ← inBounds
    (writeNumberIntoBlock inode_table (index*g.blockSize+offset_in_block) links_count 2)
  g.write (u32 (group_desc.bgInodeTable+index)) inode_table (index*g.blockSize)

def getInodeBitmapInGroup (group_id block_num : ℕ) : Fsck Buf := do
  let group_desc ← readGroupDesc g group_id
  g.readBlocks group_desc.bgInodeBitmap block_num (block_num*g.blockSize)

def getInodeBitmapInPartition : Fsck Buf :=
  let group_num := g.getInodeGroupNum
  let block_num := g.getGroupInodeBitmapBlockNum
  (List.range group_num).foldlM (fun bitmap i => do
    let b ← g.getInodeBitmapInGroup i block_num
    inBounds (bitmap.overlay (u32 (i*block_num*g.blockSize)) b))
    (Buf.zero (u32 (group_num*block_num*g.blockSize)))

end Globals

/-- Bit `n-1` of a bitmap: number 1 is the least significant bit of byte 0. -/
def allocBit (bitmap : Buf) (n : ℕ) : Option Byte := do
  let c ← bitmap.load (pred32 n/bitsPerByte)
  pure ((c >>> (pred32 n % bitsPerByte)) &&& 1)

def getInodeAllocBit (inode_bitmap : Buf) (inode_num : ℕ) : Option Byte :=
  allocBit inode_bitmap inode_num

end MyFsck
