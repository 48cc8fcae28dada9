import MyFsck.Partition

/-! The superblock and the group descriptors (`superBlock.c`, `groupDescriptor.c`). -/
namespace MyFsck

open ByteBuffer

def superBlockSize : ℕ := 1024
def groupDescSize : ℕ := 32

structure SuperBlock where
  sInodesCount : ℕ
  sBlocksCount : ℕ
  sRBlocksCount : ℕ
  sFreeBlocksCount : ℕ
  sFreeInodesCount : ℕ
  sFirstDataBlock : ℕ
  sLogBlockSize : ℕ
  sLogFragSize : ℤ
  sBlocksPerGroup : ℕ
  sFragsPerGroup : ℕ
  sInodesPerGroup : ℕ
  sMtime : ℕ
  sWtime : ℕ
  sMntCount : ℕ
  sMaxMntCount : ℤ
  sMagic : ℕ
  sState : ℕ
  sErrors : ℕ
  sMinorRevLevel : ℕ
  sLastcheck : ℕ
  sCheckinterval : ℕ
  sCreatorOs : ℕ
  sRevLevel : ℕ
  sDefResuid : ℕ
  sDefResgid : ℕ
  sFirstIno : ℕ
  sInodeSize : ℕ
  sBlockGroupNr : ℕ
  sFeatureCompat : ℕ
  sFeatureIncompat : ℕ
  sFeatureRoCompat : ℕ

def decodeSuperBlock (contents : Buf) : Option SuperBlock := do
  pure {
    sInodesCount := ← parse contents 0 4
    sBlocksCount := ← parse contents 4 4
    sRBlocksCount := ← parse contents 8 4
    sFreeBlocksCount := ← parse contents 12 4
    sFreeInodesCount := ← parse contents 16 4
    sFirstDataBlock := ← parse contents 20 4
    sLogBlockSize := ← parse contents 24 4
    sLogFragSize := ← parseS32 contents 28
    sBlocksPerGroup := ← parse contents 32 4
    sFragsPerGroup := ← parse contents 36 4
    sInodesPerGroup := ← parse contents 40 4
    sMtime := ← parse contents 44 4
    sWtime := ← parse contents 48 4
    sMntCount := ← parse contents 52 2
    sMaxMntCount := ← parseS16 contents 54
    sMagic := ← parse contents 56 2
    sState := ← parse contents 58 2
    sErrors := ← parse contents 60 2
    sMinorRevLevel := ← parse contents 62 2
    sLastcheck := ← parse contents 64 4
    sCheckinterval := ← parse contents 68 4
    sCreatorOs := ← parse contents 72 4
    sRevLevel := ← parse contents 76 4
    sDefResuid := ← parse contents 80 2
    sDefResgid := ← parse contents 82 2
    sFirstIno := ← parse contents 84 4
    sInodeSize := ← parse contents 88 2
    sBlockGroupNr := ← parse contents 90 2
    sFeatureCompat := ← parse contents 92 4
    sFeatureIncompat := ← parse contents 96 4
    sFeatureRoCompat := ← parse contents 100 4 }

/-- `1024 * (exp == 0 ? 1 : 2 << (exp - 1))` as an `int`; it overflows from 21 on. -/
def getBlockSize (exp : ℕ) : Option ℕ :=
  if exp < 21 then some (1024 * (if exp = 0 then 1 else 2 <<< (exp-1))) else none

/-- The global variables of the program once a partition is loaded. -/
structure Globals where
  partitionEntry : PartitionEntry
  superBlock : SuperBlock
  blockSize : ℕ
  groupDescBlock : Buf

/-- The superblock, and the block size it gives. -/
def readSuperBlock (partition_start : ℕ) : Fsck (SuperBlock × ℕ) := do
  let contents ← readBlock partition_start 1 superBlockSize
  let super_block ← inBounds (decodeSuperBlock contents)
  match getBlockSize super_block.sLogBlockSize with
  | some block_size => pure (super_block,block_size)
  | none => throw .undefined

def readGroupDescBlock (partition_start block_size : ℕ) : Fsck Buf :=
  readBlock partition_start 2 block_size

structure GroupDesc where
  bgBlockBitmap : ℕ
  bgInodeBitmap : ℕ
  bgInodeTable : ℕ
  bgFreeBlocksCount : ℕ
  bgFreeInodesCount : ℕ
  bgUsedDirsCount : ℕ

def decodeGroupDesc (group_desc_block : Buf) (offset : ℕ) : Option GroupDesc := do
  pure {
    bgBlockBitmap := ← parse group_desc_block offset 4
    bgInodeBitmap := ← parse group_desc_block (offset+4) 4
    bgInodeTable := ← parse group_desc_block (offset+8) 4
    bgFreeBlocksCount := ← parse group_desc_block (offset+12) 2
    bgFreeInodesCount := ← parse group_desc_block (offset+14) 2
    bgUsedDirsCount := ← parse group_desc_block (offset+16) 2 }

def readGroupDesc (g : Globals) (id : ℕ) : Fsck GroupDesc :=
  inBounds (decodeGroupDesc g.groupDescBlock (u32 (id*groupDescSize)))

namespace Globals

/-- `read_block` with the program's own block size. -/
def block (g : Globals) (block_id : ℕ) : Fsck Buf :=
  readBlock g.partitionEntry.start block_id g.blockSize

/-- `write_block` with the program's own block size. -/
def write (g : Globals) (block_id : ℕ) (src : Buf) (pos : ℕ) : Fsck Unit :=
  writeBlock g.partitionEntry.start block_id g.blockSize src pos

end Globals

end MyFsck
