import MyFsck.Inode

/-! The block bitmap (`dataBlock.c`). -/
namespace MyFsck

open ByteBuffer

namespace Globals

variable (g : Globals)

def getBlockGroupNum : ℕ :=
  u32 (g.superBlock.sBlocksCount + g.superBlock.sBlocksPerGroup + (2^32-1)) /
    g.superBlock.sBlocksPerGroup

def getGroupBlockBitmapBlockNum : ℕ :=
  let bits_num := u32 (g.superBlock.sBlocksPerGroup + bitsPerByte + (2^32-1)) / bitsPerByte
  u32 (bits_num + g.blockSize + (2^32-1)) / g.blockSize

def getBlockBitmapInGroup (group_id block_num : ℕ) : Fsck Buf := do
  let group_desc ← readGroupDesc g group_id
  g.readBlocks group_desc.bgBlockBitmap block_num (block_num*g.blockSize)

def getBlockBitmapInPartition : Fsck Buf :=
  let group_num := g.getBlockGroupNum
  let block_num := g.getGroupBlockBitmapBlockNum
  (List.range group_num).foldlM (fun bitmap i => do
    let b ← g.getBlockBitmapInGroup i block_num
    inBounds (bitmap.overlay (u32 (i*block_num*g.blockSize)) b))
    (Buf.zero (u32 (group_num*block_num*g.blockSize)))

def writeBlockBitmapInGroup (block_bitmap : Buf) (pos group_id block_num : ℕ) : Fsck Unit := do
  let group_desc ← readGroupDesc g group_id
  (List.range block_num).foldlM (fun _ i =>
    g.write (u32 (group_desc.bgBlockBitmap+i)) block_bitmap (pos+i*g.blockSize)) ()

def writeBlockBitmapInPartition (bitmap : Buf) : Fsck Unit :=
  let group_num := g.getBlockGroupNum
  let block_num := g.getGroupBlockBitmapBlockNum
  (List.range group_num).foldlM (fun _ i =>
    g.writeBlockBitmapInGroup bitmap (u32 (i*block_num*g.blockSize)) i block_num) ()

end Globals

/-- Flip the bit of `block_id`. -/
def fixBlockBitmapInPartition (bitmap : Buf) (block_id : ℕ) : Option Buf := do
  let index := pred32 block_id/bitsPerByte
  let c ← bitmap.load index
  bitmap.store index (c ^^^ (1#8 <<< (pred32 block_id % bitsPerByte)))

def getBlockAllocBit (block_bitmap : Buf) (block_id : ℕ) : Option Byte :=
  allocBit block_bitmap block_id

end MyFsck
