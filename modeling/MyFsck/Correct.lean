import MyFsck.Dir

/-! The four passes (`correct.c`). Recursive walks take the depth they may reach as fuel. -/
namespace MyFsck

open ByteBuffer ErrorState

def firstEntryLen : ℕ := 12
def indirectMaxBlock : ℕ := 268
def doubleIndirectMaxBlock : ℕ := 65549
/-- `lost+found` -/
def lostFoundDirName : List Byte := [108,111,115,116,43,102,111,117,110,100]

def calloc (n : ℕ) : Buf := Buf.zero (u32 n)

section Pass1

variable (g : Globals)

def pass1Corrector (dir_block : Buf) (block_id offset_in_block inode_num : ℕ) : Fsck Buf := do
  let dir_block ← inBounds (writeNumberIntoBlock dir_block offset_in_block inode_num 4)
  g.write block_id dir_block 0
  pure dir_block

def pass1 : ℕ → (parent_inode_num inode_num : ℕ) → Fsck Unit
  | 0, _, _ => throw .outOfFuel
  | fuel+1, parent_inode_num, inode_num => do
    let inode ← g.readInode inode_num
    if notInodeIsDir inode then pure ()
    else
      forBlocks (fun _ block_id _ => do
        let dir_block ← g.block block_id
        let _ ← scanEntries g.blockSize id (fun count offset entry dir_block => do
            if dirIsDir entry then
              if count = 0 then
                if entry.inode ≠ inode_num then
                  print (.dirEntryIncorrect inode_num entry.name entry.inode)
                  pass1Corrector g dir_block block_id offset inode_num
                else pure dir_block
              else if count = 1 then
                if entry.inode ≠ parent_inode_num then
                  print (.dirEntryIncorrect parent_inode_num entry.name entry.inode)
                  pass1Corrector g dir_block block_id offset parent_inode_num
                else pure dir_block
              else
                pass1 fuel inode_num entry.inode
                pure dir_block
            else pure dir_block)
          g.blockSize 0 0 dir_block
        pure ()) 0 inode.iBlock ()

end Pass1

section Pass2

variable (g : Globals)

/-- `counts[n]++` on an array of `char`. -/
def countUp (inode_links_count : Buf) (n : ℕ) : Option Buf := do
  let c ← inode_links_count.load n
  inode_links_count.store n (c+1)

def directoryTraversor : ℕ → (inode_links_count : Buf) → (inode_num : ℕ) → Fsck Buf
  | 0, _, _ => throw .outOfFuel
  | fuel+1, inode_links_count, inode_num => do
    let inode ← g.readInode inode_num
    forBlocks (fun i block_id counts => do
      let dir_block ← g.block block_id
      scanEntries g.blockSize (fun _ => dir_block) (fun count _ entry counts => do
          let counts ← inBounds (countUp counts entry.inode)
          if i ≠ 0 ∨ 2 ≤ count then
            if dirIsDir entry then directoryTraversor fuel counts entry.inode else pure counts
          else pure counts)
        g.blockSize 0 0 counts) 0 inode.iBlock inode_links_count

/-- The loop that fills `name`, least significant digit first; a `__u32` has at most ten. -/
def nameDigits : ℕ → (inode_num : ℕ) → List Byte
  | 0, _ => []
  | k+1, inode_num =>
    if inode_num = 0 then [] else BitVec.ofNat 8 (inode_num%10+48) :: nameDigits k (inode_num/10)

def createNewEntry (inode_num : ℕ) : Fsck DirEntry := do
  let inode ← g.readInode inode_num
  let name := (nameDigits 10 inode_num).reverse
  pure {
    inode := inode_num
    recLen := padTo4Bytes (dirEntryPrefixLen+name.length)
    nameLen := name.length
    fileType := if inodeIsDir inode then dirType else regType
    name := name }

/-- Store the bytes of a list from `pos` on. -/
def storeBytes (b : Buf) : ℕ → List Byte → Option Buf
  | _, [] => some b
  | pos, c::cs => do
    let b ← b.store pos c
    storeBytes b (pos+1) cs

def writeNewEntry (entry : DirEntry) (dir_block : Buf) (block_id offset_in_block : ℕ) :
    Fsck Unit := do
  let b ← inBounds (writeNumberIntoBlock dir_block offset_in_block entry.inode 4)
  let rec_len := (g.blockSize-offset_in_block) % 2^16
  let b ← inBounds (writeNumberIntoBlock b (offset_in_block+4) rec_len 2)
  let b ← inBounds (b.store (offset_in_block+6) (BitVec.ofNat 8 entry.nameLen))
  let b ← inBounds (b.store (offset_in_block+7) (BitVec.ofNat 8 entry.fileType))
  let b ← inBounds (storeBytes b (offset_in_block+8) (entry.name ++ [0]))
  g.write block_id b 0

/-- The scan for the last entry: the offset and the length it ends with, and the entry read last.
The entry keeps what it held when nothing could be read. -/
def findLastEntry (block_size : ℕ) (dir_block : Buf) :
    ℕ → (offset : ℕ) → (len : ℤ) → (entry : Option DirEntry) → Fsck (ℕ × ℤ × Option DirEntry)
  | 0, offset, len, entry => if offset < block_size then throw .outOfFuel else pure (offset,len,entry)
  | turns+1, offset, len, entry =>
    if offset < block_size then do
      match ← inBounds (readDirEntryInBlock dir_block offset) with
      | none => pure (offset,-1,entry)
      | some e => findLastEntry block_size dir_block turns (offset+e.recLen) e.recLen (some e)
    else pure (offset,len,entry)

/-- The loop of `add_to_lost_found` over the blocks of `lost+found`. -/
def placeEntry (new_entry : DirEntry) : List ℕ → (entry : Option DirEntry) → Fsck Unit
  | [], _ => pure ()
  | block_id::rest, entry =>
    if block_id = 0 then pure ()
    else do
      let dir_block ← g.block block_id
      let (offset,len,entry) ← findLastEntry g.blockSize dir_block g.blockSize 0 0 entry
      let offset := ((offset:ℤ)-len).toNat
      match entry with
      | none => throw .undefined
      | some e =>
        let real_len := padTo4Bytes (dirEntryPrefixLen+e.nameLen)
        if offset+real_len+new_entry.recLen < g.blockSize then do
          let dir_block ← inBounds (writeNumberIntoBlock dir_block (offset+4) real_len 2)
          writeNewEntry g new_entry dir_block block_id (offset+real_len)
        else placeEntry new_entry rest (some e)

/-- `some (-1)`, or `none` where the function ends without a `return`. -/
def addToLostFound (inode_num : ℕ) : Fsck (Option ℤ) := do
  let root_inode ← g.readInode rootInodeNum
  match ← searchDirEntry g root_inode lostFoundDirName with
  | none =>
    print .cannotFindLostFound
    pure (some (-1))
  | some lost_found_dir => do
    let lost_found_inode ← g.readInode lost_found_dir.inode
    let new_entry ← createNewEntry g inode_num
    placeEntry g new_entry lost_found_inode.iBlock none
    let inode ← g.readInode inode_num
    let first := inode.iBlock.getD 0 0
    let dir_block ← g.block first
    let dir_block ← inBounds (writeNumberIntoBlock dir_block firstEntryLen lost_found_dir.inode 4)
    g.write first dir_block 0
    pure none

/-- One turn of the loop of `pass2`. -/
def pass2Step (fuel : ℕ) (bitmap inode_links_count : Buf) (i : ℕ) : Fsck Buf := do
  let inode ← g.readInode i
  if inode.iLinksCount = 0 then pure inode_links_count
  else do
    let alloc_bit ← inBounds (getInodeAllocBit bitmap i)
    if alloc_bit = 1 then do
      let c ← inBounds (inode_links_count.load i)
      if c = 0 then do
        print (.unreferencedInode i)
        let counts ←
          if inodeIsDir inode then directoryTraversor g fuel inode_links_count i
          else pure inode_links_count
        let _ ← addToLostFound g i
        pure counts
      else pure inode_links_count
    else pure inode_links_count

def pass2 (fuel : ℕ) : Fsck Unit := do
  let inode_links_count := calloc (g.superBlock.sInodesCount+1)
  let inode_links_count ← directoryTraversor g fuel inode_links_count rootInodeNum
  let bitmap ← g.getInodeBitmapInPartition
  let _ ← (List.range' 1 g.superBlock.sInodesCount).foldlM (pass2Step g fuel bitmap)
    inode_links_count
  pure ()

end Pass2

section Pass3

variable (g : Globals)

/-- One turn of the loop of `pass3`. The counter is a `char`: it is compared as a signed number,
and handed on as a `__u32`. -/
def pass3Step (inode_links_count : Buf) (i : ℕ) : Fsck Unit := do
  let inode ← g.readInode i
  let c ← inBounds (inode_links_count.load i)
  if (inode.iLinksCount:ℤ) ≠ c.toInt then
    print (.refCount i inode.iLinksCount (c.signExtend 32).toNat)
    g.writeInode i (c.signExtend 32).toNat
  else pure ()

def pass3 (fuel : ℕ) : Fsck Unit := do
  let inode_links_count := calloc (g.superBlock.sInodesCount+1)
  let inode_links_count ← directoryTraversor g fuel inode_links_count rootInodeNum
  (List.range' 1 g.superBlock.sInodesCount).foldlM
    (fun _ i => pass3Step g inode_links_count i) ()

end Pass3

section Pass4

variable (g : Globals)

/-- `block_bitmap[block_id] = 1` -/
def mark (block_bitmap : Buf) (block_id : ℕ) : Option Buf := block_bitmap.store block_id 1

/-- Mark each of the blocks in turn. -/
def markAll (block_bitmap : Buf) (blocks : List ℕ) : Option Buf := blocks.foldlM mark block_bitmap

/-- The loop over a pointer block: from byte `i` on, with `k` blocks counted. The second component
tells whether the function returned. -/
def markPointers (pointer_block : Buf) (file_block_num : ℕ) :
    (turns i k : ℕ) → Buf → Option (Buf × ℕ × Bool)
  | 0, _, k, block_bitmap => some (block_bitmap,k,false)
  | turns+1, i, k, block_bitmap => do
    let p ← parse pointer_block i 4
    let block_bitmap ← mark block_bitmap p
    if k+1 = file_block_num then some (block_bitmap,k+1,true)
    else markPointers pointer_block file_block_num turns (i+4) (k+1) block_bitmap

/-- The turns of `for (i = 0; i < block_size; i += 4)`. -/
def pointersPerBlock : ℕ := (g.blockSize+3)/4

def getFileIndirectBlockBitmap (block_bitmap : Buf) (inode : Inode) (file_block_num : ℕ) :
    Fsck Buf := do
  let block_bitmap ← inBounds (markAll block_bitmap (inode.iBlock.take ext2NdirBlocks))
  let ind := inode.iBlock.getD ext2IndBlock 0
  let block_bitmap ← inBounds (mark block_bitmap ind)
  let pointer_block ← g.block ind
  let r ← inBounds
    (markPointers pointer_block file_block_num (pointersPerBlock g) 0 ext2IndBlock block_bitmap)
  pure r.1

/-- The loop over the single-indirect block, which has no early return. -/
def markAllPointers (pointer_block : Buf) : (turns i : ℕ) → Buf → Option Buf
  | 0, _, block_bitmap => some block_bitmap
  | turns+1, i, block_bitmap => do
    let p ← parse pointer_block i 4
    let block_bitmap ← mark block_bitmap p
    markAllPointers pointer_block turns (i+4) block_bitmap

/-- The loop over the double-indirect block. -/
def markSecondLevel (pointer_block_lev1 : Buf) (file_block_num : ℕ) :
    (turns i k : ℕ) → Buf → Fsck Buf
  | 0, _, _, block_bitmap => pure block_bitmap
  | turns+1, i, k, block_bitmap => do
    let indirect_block_id ← inBounds (parse pointer_block_lev1 i 4)
    let block_bitmap ← inBounds (mark block_bitmap indirect_block_id)
    let pointer_block_lev2 ← g.block indirect_block_id
    let (block_bitmap,k,returned) ← inBounds
      (markPointers pointer_block_lev2 file_block_num (pointersPerBlock g) 0 k block_bitmap)
    if returned then pure block_bitmap
    else markSecondLevel pointer_block_lev1 file_block_num turns (i+4) k block_bitmap

def getFileDoubleIndirectBlockBitmap (block_bitmap : Buf) (inode : Inode) (file_block_num : ℕ) :
    Fsck Buf := do
  let block_bitmap ← inBounds (markAll block_bitmap (inode.iBlock.take ext2NdirBlocks))
  let ind := inode.iBlock.getD ext2IndBlock 0
  let block_bitmap ← inBounds (mark block_bitmap ind)
  let pointer_block_lev1 ← g.block ind
  let block_bitmap ← inBounds
    (markAllPointers pointer_block_lev1 (pointersPerBlock g) 0 block_bitmap)
  let dind := inode.iBlock.getD ext2DindBlock 0
  let block_bitmap ← inBounds (mark block_bitmap dind)
  let pointer_block_lev1 ← g.block dind
  markSecondLevel g pointer_block_lev1 file_block_num (pointersPerBlock g) 0
    (ext2NdirBlocks+pointersPerBlock g) block_bitmap

/-- `(i_size + block_size - 1) / block_size` on `__u32`. -/
def fileBlockNum (inode : Inode) : ℕ := u32 (inode.iSize+g.blockSize+(2^32-1)) / g.blockSize

def getFileBlockBitmap (block_bitmap : Buf) (inode : Inode) : Fsck Buf :=
  let file_block_num := fileBlockNum g inode
  if file_block_num ≤ ext2NdirBlocks then
    inBounds (markAll block_bitmap (inode.iBlock.take file_block_num))
  else if file_block_num ≤ indirectMaxBlock then
    getFileIndirectBlockBitmap g block_bitmap inode file_block_num
  else if file_block_num ≤ doubleIndirectMaxBlock then
    getFileDoubleIndirectBlockBitmap g block_bitmap inode file_block_num
  else do
    print .tooLarge
    pure block_bitmap

def getTrueBlockBitmap : ℕ → (block_bitmap : Buf) → (inode_num : ℕ) → Fsck Buf
  | 0, _, _ => throw .outOfFuel
  | fuel+1, block_bitmap, inode_num => do
    let inode ← g.readInode inode_num
    if inodeIsLnk inode then pure block_bitmap
    else if inodeIsReg inode then getFileBlockBitmap g block_bitmap inode
    else
      forBlocks (fun i block_id block_bitmap => do
        let block_bitmap ← inBounds (mark block_bitmap block_id)
        let dir_block ← g.block block_id
        scanEntries g.blockSize (fun _ => dir_block) (fun count _ entry block_bitmap => do
            if i ≠ 0 ∨ 2 ≤ count then getTrueBlockBitmap fuel block_bitmap entry.inode
            else pure block_bitmap)
          g.blockSize 0 0 block_bitmap) 0 inode.iBlock block_bitmap

def getSkipBlockNumInGroup : ℕ :=
  2 + g.getGroupBlockBitmapBlockNum + g.getGroupInodeBitmapBlockNum + g.getGroupInodeBlockNum

/-- Compare a block's bit with what it should be, and flip it when it differs. -/
def checkBit (bitmap : Buf) (found_error : Bool) (block_id : ℕ) (should_be alloc_bit : Byte) :
    Fsck (Buf × Bool) :=
  if should_be ≠ alloc_bit then do
    print (.bitmapDifference block_id)
    let bitmap ← inBounds (fixBlockBitmapInPartition bitmap block_id)
    pure (bitmap,true)
  else pure (bitmap,found_error)

/-- The inner loop of `pass4` over one group. -/
def checkGroup (true_bitmap : Buf) : (turns block_id : ℕ) → Buf × Bool → Fsck (ℕ × Buf × Bool)
  | 0, block_id, s => pure (block_id,s)
  | turns+1, block_id, s => do
    let alloc_bit ← inBounds (getBlockAllocBit s.1 block_id)
    let t ← inBounds (true_bitmap.load block_id)
    let s ← checkBit s.1 s.2 block_id t alloc_bit
    if g.superBlock.sBlocksCount ≤ block_id+1 then pure (block_id+1,s)
    else checkGroup true_bitmap turns (block_id+1) s

/-- The first loop of `pass4`, over the groups. -/
def checkGroups (true_bitmap : Buf) : (groups block_id : ℕ) → Buf × Bool → Fsck (Buf × Bool)
  | 0, _, s => pure s
  | groups+1, block_id, s => do
    let (block_id,s) ← checkGroup g true_bitmap
      (g.superBlock.sBlocksPerGroup-getSkipBlockNumInGroup g)
      (u32 (block_id+getSkipBlockNumInGroup g)) s
    checkGroups true_bitmap groups block_id s

/-- The second loop of `pass4`, over the inode tables. -/
def checkInodeTables (s : Buf × Bool) : Fsck (Buf × Bool) :=
  (List.range g.getBlockGroupNum).foldlM (fun s i => do
    let group_desc ← readGroupDesc g i
    (List.range g.getGroupInodeBlockNum).foldlM (fun s j => do
      let block_id := u32 (group_desc.bgInodeTable+j)
      let alloc_bit ← inBounds (getBlockAllocBit s.1 block_id)
      checkBit s.1 s.2 block_id 1 alloc_bit) s) s

/-- The number of groups is computed first, in `get_block_bitmap_in_partition`. -/
def pass4 (fuel : ℕ) : Fsck Unit := do
  checkDivisor g.superBlock.sBlocksPerGroup
  let bitmap ← g.getBlockBitmapInPartition
  let true_bitmap := calloc (g.superBlock.sBlocksCount+1)
  let true_bitmap ← getTrueBlockBitmap g fuel true_bitmap rootInodeNum
  let s ← checkGroups g true_bitmap g.getBlockGroupNum 1 (bitmap,false)
  let s ← checkInodeTables g s
  if s.2 then g.writeBlockBitmapInPartition s.1 else pure ()

end Pass4

/-- The four passes on a partition that is loaded. -/
def passes (g : Globals) (fuel : ℕ) : Fsck Unit := do
  pass1 g fuel rootInodeNum rootInodeNum
  pass2 g fuel
  pass3 g fuel
  pass4 g fuel

/-- The globals as `correct_one_partition` loads them for an ext2 partition. -/
def loadGlobals (partition_entry : PartitionEntry) : Fsck Globals := do
  let (super_block,block_size) ← readSuperBlock partition_entry.start
  let group_desc_block ← readGroupDescBlock partition_entry.start block_size
  pure ⟨partition_entry,super_block,block_size,group_desc_block⟩

/-- `some` of the value returned, or `none` where the function ends without a `return`; `old` is
the global `partition_entry` before the call, which comes back as the call leaves it. -/
def correctOnePartition (stack : ℕ → Byte) (fuel : ℕ) (old : PartitionEntry) (partition_num : ℤ) :
    Fsck (Option ℤ × PartitionEntry) := do
  let partition_entry ← readPartitionInfo stack fuel old partition_num
  if partition_entry.type = invalidType then pure (some (-1),partition_entry)
  else if partition_entry.type ≠ ext2Fs then pure (some 0,partition_entry)
  else do
    let g ← loadGlobals partition_entry
    passes g fuel
    pure (none,partition_entry)

end MyFsck
