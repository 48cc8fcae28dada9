import MyFsck.Geometry

/-! Where the inodes are according to the superblock on the disk, for every block size, inode size and
number of groups, and for which of these the program finds them there. -/
namespace MyFsck

open ByteBuffer ErrorState

/-- The superblock decoded from the bytes from `off` on. -/
def superOf (f : ℕ → Byte) (off : ℕ) : SuperBlock where
  sInodesCount := num f off 4
  sBlocksCount := num f (off+4) 4
  sRBlocksCount := num f (off+8) 4
  sFreeBlocksCount := num f (off+12) 4
  sFreeInodesCount := num f (off+16) 4
  sFirstDataBlock := num f (off+20) 4
  sLogBlockSize := num f (off+24) 4
  sLogFragSize := (BitVec.ofNat 32 (num f (off+28) 4)).toInt
  sBlocksPerGroup := num f (off+32) 4
  sFragsPerGroup := num f (off+36) 4
  sInodesPerGroup := num f (off+40) 4
  sMtime := num f (off+44) 4
  sWtime := num f (off+48) 4
  sMntCount := num f (off+52) 2
  sMaxMntCount := (BitVec.ofNat 16 (num f (off+54) 2)).toInt
  sMagic := num f (off+56) 2
  sState := num f (off+58) 2
  sErrors := num f (off+60) 2
  sMinorRevLevel := num f (off+62) 2
  sLastcheck := num f (off+64) 4
  sCheckinterval := num f (off+68) 4
  sCreatorOs := num f (off+72) 4
  sRevLevel := num f (off+76) 4
  sDefResuid := num f (off+80) 2
  sDefResgid := num f (off+82) 2
  sFirstIno := num f (off+84) 4
  sInodeSize := num f (off+88) 2
  sBlockGroupNr := num f (off+90) 2
  sFeatureCompat := num f (off+92) 4
  sFeatureIncompat := num f (off+96) 4
  sFeatureRoCompat := num f (off+100) 4

theorem superOf_congr {f f' : ℕ → Byte} {off off' : ℕ}
    (h : ∀ k < superBlockSize, f (off+k) = f' (off'+k)) : superOf f off = superOf f' off' := by
  have field : ∀ p n, p+n ≤ superBlockSize → num f (off+p) n = num f' (off'+p) n := fun p n hp =>
    num_congr fun k hk => by
      rw [Nat.add_assoc,Nat.add_assoc]
      exact h _ (by omega)
  have h0 := field 0 4 (by decide)
  simp only [Nat.add_zero] at h0
  unfold superOf
  rw [h0,field 4 4 (by decide),field 8 4 (by decide),field 12 4 (by decide),field 16 4 (by decide),
    field 20 4 (by decide),field 24 4 (by decide),field 28 4 (by decide),field 32 4 (by decide),
    field 36 4 (by decide),field 40 4 (by decide),field 44 4 (by decide),field 48 4 (by decide),
    field 52 2 (by decide),field 54 2 (by decide),field 56 2 (by decide),field 58 2 (by decide),
    field 60 2 (by decide),field 62 2 (by decide),field 64 4 (by decide),field 68 4 (by decide),
    field 72 4 (by decide),field 76 4 (by decide),field 80 2 (by decide),field 82 2 (by decide),
    field 84 4 (by decide),field 88 2 (by decide),field 90 2 (by decide),field 92 4 (by decide),
    field 96 4 (by decide),field 100 4 (by decide)]

theorem decodeSuperBlock_eq {t : Buf} (h : superBlockSize ≤ t.size) :
    decodeSuperBlock t = some (superOf t.byte 0) := by
  have field : ∀ p n, n ≤ 4 → p+n ≤ superBlockSize → parse t p n = some (num t.byte p n) :=
    fun p n hn hp => parse_eq hn (hp.trans h)
  unfold decodeSuperBlock parseS16 parseS32
  rw [field 0 4 (by decide) (by decide),field 4 4 (by decide) (by decide),
    field 8 4 (by decide) (by decide),field 12 4 (by decide) (by decide),
    field 16 4 (by decide) (by decide),field 20 4 (by decide) (by decide),
    field 24 4 (by decide) (by decide),field 28 4 (by decide) (by decide),
    field 32 4 (by decide) (by decide),field 36 4 (by decide) (by decide),
    field 40 4 (by decide) (by decide),field 44 4 (by decide) (by decide),
    field 48 4 (by decide) (by decide),field 52 2 (by decide) (by decide),
    field 54 2 (by decide) (by decide),field 56 2 (by decide) (by decide),
    field 58 2 (by decide) (by decide),field 60 2 (by decide) (by decide),
    field 62 2 (by decide) (by decide),field 64 4 (by decide) (by decide),
    field 68 4 (by decide) (by decide),field 72 4 (by decide) (by decide),
    field 76 4 (by decide) (by decide),field 80 2 (by decide) (by decide),
    field 82 2 (by decide) (by decide),field 84 4 (by decide) (by decide),
    field 88 2 (by decide) (by decide),field 90 2 (by decide) (by decide),
    field 92 4 (by decide) (by decide),field 96 4 (by decide) (by decide),
    field 100 4 (by decide) (by decide)]
  unfold superOf
  simp only [Nat.zero_add]
  rfl

/-- `s_log_block_size` as a number of bytes. -/
def SuperBlock.blockBytes (s : SuperBlock) : ℕ := 1024*2^s.sLogBlockSize

def SuperBlock.groups (s : SuperBlock) : ℕ :=
  (s.sInodesCount+s.sInodesPerGroup-1)/s.sInodesPerGroup

section Places

variable (img : Buf) (start : ℕ)

/-- The superblock of the partition that starts at sector `start`. -/
def superAt : SuperBlock := superOf img.byte (start*sectorSizeBytes+1024)

/-- The byte at which block `b` starts. -/
def blockStart (b : ℕ) : ℕ := start*sectorSizeBytes+b*(superAt img start).blockBytes

/-- The byte at which the descriptor of group `a` starts: the table is behind the superblock's block
and may be several blocks long. -/
def descStart (a : ℕ) : ℕ :=
  blockStart img start ((superAt img start).sFirstDataBlock+1)+a*groupDescSize

/-- The first block of the inode table of group `a`. -/
def tableStart (a : ℕ) : ℕ := num img.byte (descStart img start a+8) 4

/-- The byte at which the record of inode `i` starts. -/
def recordStart (i : ℕ) : ℕ :=
  blockStart img start (tableStart img start ((i-1)/(superAt img start).sInodesPerGroup))+
    (i-1)%(superAt img start).sInodesPerGroup*(superAt img start).sInodeSize

/-- A superblock and group descriptors as ext2 has them, with everything they name in the file system
and the file system in the image. -/
structure ValidSuper : Prop where
  first_eq : (superAt img start).sFirstDataBlock =
    if (superAt img start).sLogBlockSize = 0 then 1 else 0
  inode_pow : ∃ m < 16, (superAt img start).sInodeSize = 2^m
  inode_ge : 128 ≤ (superAt img start).sInodeSize
  inode_le : (superAt img start).sInodeSize ≤ (superAt img start).blockBytes
  group_pos : 0 < (superAt img start).sInodesPerGroup
  group_le : (superAt img start).sInodesPerGroup ≤ 8*(superAt img start).blockBytes
  sectors_lt : (superAt img start).sBlocksCount*((superAt img start).blockBytes/sectorSizeBytes) < 2^32
  descriptors_in : descStart img start (superAt img start).groups ≤
    blockStart img start (superAt img start).sBlocksCount
  table_in : ∀ a < (superAt img start).groups, blockStart img start (tableStart img start a)+
    (superAt img start).sInodesPerGroup*(superAt img start).sInodeSize ≤
      blockStart img start (superAt img start).sBlocksCount
  in_image : blockStart img start (superAt img start).sBlocksCount ≤ img.size

end Places

instance (img : Buf) (start : ℕ) : Decidable (ValidSuper img start) :=
  decidable_of_iff ((superAt img start).sFirstDataBlock =
      (if (superAt img start).sLogBlockSize = 0 then 1 else 0) ∧
    (∃ m < 16, (superAt img start).sInodeSize = 2^m) ∧ 128 ≤ (superAt img start).sInodeSize ∧
    (superAt img start).sInodeSize ≤ (superAt img start).blockBytes ∧
    0 < (superAt img start).sInodesPerGroup ∧
    (superAt img start).sInodesPerGroup ≤ 8*(superAt img start).blockBytes ∧
    (superAt img start).sBlocksCount*((superAt img start).blockBytes/sectorSizeBytes) < 2^32 ∧
    descStart img start (superAt img start).groups ≤
      blockStart img start (superAt img start).sBlocksCount ∧
    (∀ a < (superAt img start).groups, blockStart img start (tableStart img start a)+
      (superAt img start).sInodesPerGroup*(superAt img start).sInodeSize ≤
        blockStart img start (superAt img start).sBlocksCount) ∧
    blockStart img start (superAt img start).sBlocksCount ≤ img.size)
    ⟨fun ⟨h₁,h₂,h₃,h₄,h₅,h₆,h₇,h₈,h₉,h₁₀⟩ => ⟨h₁,h₂,h₃,h₄,h₅,h₆,h₇,h₈,h₉,h₁₀⟩,
      fun ⟨h₁,h₂,h₃,h₄,h₅,h₆,h₇,h₈,h₉,h₁₀⟩ => ⟨h₁,h₂,h₃,h₄,h₅,h₆,h₇,h₈,h₉,h₁₀⟩⟩

theorem ValidSuper.group_lt {img : Buf} {start i : ℕ} (hv : ValidSuper img start) (h1 : 1 ≤ i)
    (hi : i ≤ (superAt img start).sInodesCount) :
    (i-1)/(superAt img start).sInodesPerGroup < (superAt img start).groups :=
  div_lt_roundUp hv.group_pos (by omega)

/-- `read_inode`, on a partition that is loaded, decodes the record of the inode. -/
def DecodesRecord (e : PartitionEntry) (d : Device) (i : ℕ) : Prop :=
  (do let g ← loadGlobals e
      g.readInode i).run d = .ok (inodeOf d.image.byte (recordStart d.image e.start i)) d

section Small

variable {e : PartitionEntry} {d : Device}

/-- The globals of such a partition. -/
def smallGlobals (e : PartitionEntry) (img : Buf) : Globals where
  partitionEntry := e
  superBlock := superAt img e.start
  blockSize := 1024
  groupDescBlock := img.slice (e.start*sectorSizeBytes+2048) 1024

theorem loadGlobals_small (hlog : (superAt d.image e.start).sLogBlockSize = 0)
    (hin : e.start*sectorSizeBytes+3072 ≤ d.image.size) :
    (loadGlobals e).run d = .ok (smallGlobals e d.image) d := by
  have read : ∀ b < 3, (readBlock e.start b 1024).run d =
      .ok (d.image.slice (e.start*sectorSizeBytes+b*1024) 1024) d := by
    intro b hb
    have hoff : blockSector e.start 1024 b*sectorSizeBytes = e.start*sectorSizeBytes+b*1024 := by
      unfold blockSector
      simp only [sectorSizeBytes]
      rw [u32_eq (by omega)]
      omega
    unfold readBlock readSectors
    rw [bind_ok (EStateM.run_get d),hoff,show sectorSizeBytes*(1024/sectorSizeBytes) = 1024 from rfl,
      Buf.window_eq (by omega)]
    rfl
  have hsuper : superOf (d.image.slice (e.start*sectorSizeBytes+1*1024) 1024).byte 0 =
      superAt d.image e.start := superOf_congr fun k hk => by
    rw [Nat.zero_add,Buf.slice_byte _ (show k < 1024 from hk),Nat.one_mul]
  unfold loadGlobals readSuperBlock readGroupDescBlock
  rw [show superBlockSize = 1024 from rfl,bind_assoc,bind_ok (read 1 (by omega)),
    decodeSuperBlock_eq (by rfl),bind_assoc,bind_ok (inBounds_some _ _),hsuper,hlog]
  have hsize : getBlockSize 0 = some 1024 := rfl
  rw [hsize]
  dsimp only
  rw [pure_bind]
  dsimp only
  rw [bind_ok (read 2 (by omega))]
  rfl

section Valid

variable (hv : ValidSuper d.image e.start) (hlog : (superAt d.image e.start).sLogBlockSize = 0)
include hlog

theorem small_blockBytes : (superAt d.image e.start).blockBytes = 1024 := by
  rw [SuperBlock.blockBytes,hlog,pow_zero,Nat.mul_one]

theorem blockStart_small (b : ℕ) :
    blockStart d.image e.start b = (smallGlobals e d.image).blockOffset b := by
  rw [blockStart,small_blockBytes hlog]
  simp only [smallGlobals,Globals.blockOffset,sectorSizeBytes]
  omega

include hv

theorem descStart_small (a : ℕ) :
    descStart d.image e.start a = e.start*sectorSizeBytes+2048+a*groupDescSize := by
  have hfirst := hv.first_eq
  rw [hlog,if_pos rfl] at hfirst
  rw [descStart,blockStart,small_blockBytes hlog,hfirst]

theorem inodeTable_small {a : ℕ} (hdesc : a*groupDescSize < 1024) :
    (smallGlobals e d.image).inodeTable a = tableStart d.image e.start a := by
  simp only [groupDescSize] at hdesc
  unfold Globals.inodeTable tableStart
  rw [descStart_small hv hlog]
  refine num_congr fun k hk => ?_
  simp only [smallGlobals,groupDescSize]
  rw [Buf.slice_byte _ (by omega)]
  refine congrArg d.image.byte ?_
  omega

theorem small_readable {a : ℕ} (ha : a < (superAt d.image e.start).groups)
    (hdesc : a*groupDescSize < 1024) : TableReadable (smallGlobals e d.image) a where
  block_pos := by simp [smallGlobals]
  sector_dvd := by simp only [smallGlobals]; decide
  sectors_lt := by
    have h := hv.sectors_lt
    rw [small_blockBytes hlog] at h
    exact h
  group_pos := hv.group_pos
  table_le := by
    have h := hv.group_le
    rw [small_blockBytes hlog] at h
    simp only [smallGlobals,inodeSize]
    omega
  desc_le := by
    simp only [smallGlobals,groupDescSize,Buf.slice_size] at hdesc ⊢
    omega
  desc_lt := hdesc.trans (by norm_num)
  table_in := by
    have h := hv.table_in a ha
    have hmul := Nat.mul_le_mul_left (superAt d.image e.start).sInodesPerGroup hv.inode_ge
    rw [blockStart,blockStart,small_blockBytes hlog] at h
    rw [inodeTable_small hv hlog hdesc]
    simp only [smallGlobals,Globals.tableBlocks,inodeSize]
    omega

/-- With records of 128 bytes, or at the start of its table, an inode is decoded from its record. -/
theorem readInode_decodes {i : ℕ} (h1 : 1 ≤ i) (hi : i ≤ (superAt d.image e.start).sInodesCount)
    (hsize : (superAt d.image e.start).sInodeSize = 128 ∨
      (i-1)%(superAt d.image e.start).sInodesPerGroup = 0)
    (hdesc : (i-1)/(superAt d.image e.start).sInodesPerGroup*groupDescSize <
      (superAt d.image e.start).blockBytes) : DecodesRecord e d i := by
  rw [small_blockBytes hlog] at hdesc
  have hgroup := hv.group_lt h1 hi
  have hread := small_readable hv hlog hgroup hdesc
  have hfit : (smallGlobals e d.image).Fits d.image := by
    have h := hv.in_image
    rwa [blockStart_small hlog] at h
  have hin : e.start*sectorSizeBytes+3072 ≤ d.image.size := by
    have h₀ := Nat.zero_lt_of_lt hgroup
    have h₁ := hv.descriptors_in
    have h₂ := hv.in_image
    rw [descStart_small hv hlog] at h₁
    rw [blockStart,small_blockBytes hlog] at h₁ h₂
    simp only [groupDescSize] at h₁
    omega
  have hlt : i < 2^32 := hi.trans_lt (num_lt _ _ 4)
  unfold DecodesRecord
  rw [bind_ok (loadGlobals_small hlog hin),hread.readInode_run hfit h1 hlt]
  refine congrArg (fun x => EStateM.Result.ok x d) (inodeOf_congr fun k hk => ?_)
  have hpos := hread.inodePos_le i
  have hsplit := @inodeOffset_split (smallGlobals e d.image) i
  have hslot : (smallGlobals e d.image).inodeOffset i =
      (i-1)%(superAt d.image e.start).sInodesPerGroup*(superAt d.image e.start).sInodeSize := by
    simp only [smallGlobals,Globals.inodeOffset,inodeSize]
    rcases hsize with h | h
    · rw [h]
    · rw [h,Nat.zero_mul,Nat.zero_mul]
  rw [Globals.blockAt,Buf.slice_byte _ (by omega),recordStart,blockStart_small hlog,← hslot,hsplit,
    ← inodeTable_small hv hlog hdesc,Globals.inodeBlock,hread.offset_eq,hread.offset_eq]
  refine congrArg d.image.byte ?_
  rw [Nat.add_mul]
  simp only [Globals.inodeGroup,smallGlobals]
  omega

end Valid

end Small

def superBytes (inodes blocks first log per_group inodes_per_group inode_size : ℕ) : List ℕ :=
  littleEndian inodes 4 ++ littleEndian blocks 4 ++ List.replicate 12 0 ++ littleEndian first 4 ++
    littleEndian log 4 ++ List.replicate 4 0 ++ littleEndian per_group 4 ++ List.replicate 4 0 ++
    littleEndian inodes_per_group 4 ++ List.replicate 12 0 ++ littleEndian 0xEF53 2 ++
    List.replicate 30 0 ++ littleEndian inode_size 2

/-- The descriptors of `n` groups: the block and inode bitmaps and the inode table of group `a` are
the blocks from `first a` on. -/
def descriptors (start n : ℕ) (first : ℕ → ℕ) : ℕ × ℕ × (ℕ → ℕ) :=
  (start,n*groupDescSize,fun j => (littleEndian (first (j/groupDescSize)) 4 ++
    littleEndian (first (j/groupDescSize)+1) 4 ++ littleEndian (first (j/groupDescSize)+2) 4).getD
      (j%groupDescSize) 0)

/-- Blocks of 1 KiB and inodes of 128 bytes; inode 2 is the root. -/
def plainPartition : Buf := Buf.ofFn (512+1024*16) (pieces [
  piece (512+1024) (superBytes 16 16 1 0 8192 16 128),
  descriptors (512+1024*2) 1 fun _ => 3,
  piece (512+1024*5+128) (inodeBytes 0x41ED 1024 2 [7])])

/-- Inodes of 256 bytes. -/
def largeInodes : Buf := Buf.ofFn (512+1024*16) (pieces [
  piece (512+1024) (superBytes 8 16 1 0 8192 8 256),
  descriptors (512+1024*2) 1 fun _ => 3,
  piece (512+1024*5+256) (inodeBytes 0x41ED 1024 2 [7])])

/-- Blocks of 2 KiB. -/
def largeBlocks : Buf := Buf.ofFn (512+2048*16) (pieces [
  piece (512+1024) (superBytes 16 16 0 1 16384 16 128),
  descriptors (512+2048) 1 fun _ => 3,
  piece (512+2048*5+128) (inodeBytes 0x41ED 2048 2 [7])])

/-- 33 groups of 8 inodes; the descriptor of the last is in block 3. -/
def manyGroups : Buf := Buf.ofFn (512+1024*265) (pieces [
  piece (512+1024) (superBytes 264 265 1 0 8 8 128),
  descriptors (512+1024*2) 33 fun a => if a = 0 then 4 else 1+8*a])

theorem readInode_decodes_root : DecodesRecord ⟨ext2Fs,1,32⟩ ⟨plainPartition,[]⟩ 2 :=
  readInode_decodes (show ValidSuper plainPartition 1 by decide +kernel) (by decide +kernel)
    (by decide) (show 2 ≤ (superAt plainPartition 1).sInodesCount by decide +kernel)
    (Or.inl (by decide +kernel)) (by decide +kernel)

/-- An inode of 256 bytes is looked for at half its place, the descriptors of a file system of larger
blocks one block too far, and the descriptor of the 33rd group behind the block that is read. -/
theorem readInode_misses :
    (ValidSuper largeInodes 1 ∧ 2 ≤ (superAt largeInodes 1).sInodesCount ∧
      ¬ DecodesRecord ⟨ext2Fs,1,32⟩ ⟨largeInodes,[]⟩ 2) ∧
    (ValidSuper largeBlocks 1 ∧ 2 ≤ (superAt largeBlocks 1).sInodesCount ∧
      ¬ DecodesRecord ⟨ext2Fs,1,64⟩ ⟨largeBlocks,[]⟩ 2) ∧
    ValidSuper manyGroups 1 ∧ 257 ≤ (superAt manyGroups 1).sInodesCount ∧
      ¬ DecodesRecord ⟨ext2Fs,1,530⟩ ⟨manyGroups,[]⟩ 257 := by
  have h₁ : endsIn (do let g ← loadGlobals ⟨ext2Fs,1,32⟩; g.readInode 2) ⟨largeInodes,[]⟩
      (fun x _ => decide (x ≠ inodeOf largeInodes.byte (recordStart largeInodes 1 2))) = true := by
    decide +kernel
  have h₂ : endsIn (do let g ← loadGlobals ⟨ext2Fs,1,64⟩; g.readInode 2) ⟨largeBlocks,[]⟩
      (fun x _ => decide (x ≠ inodeOf largeBlocks.byte (recordStart largeBlocks 1 2))) = true := by
    decide +kernel
  have h₃ : stopsWith (do let g ← loadGlobals ⟨ext2Fs,1,530⟩; g.readInode 257) ⟨manyGroups,[]⟩
      Fault.outOfBounds = true := by decide +kernel
  refine ⟨⟨by decide +kernel,by decide +kernel,fun hrun => ?_⟩,
    ⟨by decide +kernel,by decide +kernel,fun hrun => ?_⟩,by decide +kernel,by decide +kernel,
    fun hrun => ?_⟩
  · have hne := of_endsIn h₁ hrun
    exact of_decide_eq_true hne rfl
  · have hne := of_endsIn h₂ hrun
    exact of_decide_eq_true hne rfl
  · obtain ⟨d',hstop⟩ := exists_of_stopsWith h₃
    rw [DecodesRecord,hstop] at hrun
    cases hrun

end MyFsck
