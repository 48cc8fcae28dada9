import MyFsck.LinkCounts

/-! `write_inode` on a partition given by its own length, not by the number of blocks that the
superblock claims. -/
namespace MyFsck

open ByteBuffer ErrorState

/-- The image holds the partition. -/
def Globals.PartitionIn (g : Globals) (img : Buf) : Prop :=
  (g.partitionEntry.start+g.partitionEntry.length)*sectorSizeBytes ≤ img.size

instance (g : Globals) (img : Buf) : Decidable (g.PartitionIn img) := inferInstanceAs (Decidable (_ ≤ _))

/-- Blocks of whole sectors, in a partition whose sectors a `__u32` can count. -/
structure PartitionSizes (g : Globals) : Prop where
  block_pos : 0 < g.blockSize
  sector_dvd : sectorSizeBytes ∣ g.blockSize
  length_lt : g.partitionEntry.length < 2^32

/-- The globals with as many blocks as the partition has room for. -/
def Globals.filled (g : Globals) : Globals :=
  { g with superBlock := { g.superBlock with
      sBlocksCount := g.partitionEntry.length/(g.blockSize/sectorSizeBytes) } }

section Filled

variable {g : Globals} (hp : PartitionSizes g)

include hp in
theorem PartitionSizes.sectors_pos : 0 < g.blockSize/sectorSizeBytes :=
  Nat.div_pos (Nat.le_of_dvd hp.block_pos hp.sector_dvd) (by decide)

include hp in
theorem PartitionSizes.filled : BlockSizes g.filled where
  block_pos := hp.block_pos
  sector_dvd := hp.sector_dvd
  sectors_lt := (Nat.div_mul_le_self _ _).trans_lt hp.length_lt

theorem filled_fits {img : Buf} (hin : g.PartitionIn img) : g.filled.Fits img := by
  have hle := Nat.div_mul_le_self g.partitionEntry.length (g.blockSize/sectorSizeBytes)
  refine le_trans (Nat.mul_le_mul_right sectorSizeBytes ?_) hin
  exact Nat.add_le_add_left hle _

include hp in
theorem PartitionSizes.le_filled {n : ℕ} : n ≤ g.filled.superBlock.sBlocksCount ↔
    n*(g.blockSize/sectorSizeBytes) ≤ g.partitionEntry.length :=
  Nat.le_div_iff_mul_le hp.sectors_pos

end Filled

/-- The inode tables of the groups are runs of blocks of their own inside the partition. -/
structure PartitionTables (g : Globals) : Prop extends PartitionSizes g where
  group_pos : 0 < g.superBlock.sInodesPerGroup
  table_lt : g.superBlock.sInodesPerGroup*inodeSize+g.blockSize < 2^32
  inodes_lt : g.superBlock.sInodesCount < 2^32
  desc_size : g.groupDescBlock.size = g.blockSize
  desc_le : g.inodeGroups*groupDescSize ≤ g.blockSize
  table_in : ∀ a < g.inodeGroups,
    (g.inodeTable a+g.tableBlocks)*(g.blockSize/sectorSizeBytes) ≤ g.partitionEntry.length
  tables_disjoint : ∀ a < g.inodeGroups, ∀ b < g.inodeGroups, a ≠ b →
    g.inodeTable a+g.tableBlocks ≤ g.inodeTable b ∨ g.inodeTable b+g.tableBlocks ≤ g.inodeTable a

theorem PartitionTables.filled {g : Globals} (hp : PartitionTables g) : InodeTables g.filled where
  toBlockSizes := hp.toPartitionSizes.filled
  group_pos := hp.group_pos
  table_le := hp.table_lt.le
  inodes_lt := hp.inodes_lt
  desc_in a ha := by
    have h := Nat.mul_le_mul_right groupDescSize (show a+1 ≤ g.inodeGroups from ha)
    have hle := hp.desc_le
    have hlt := hp.table_lt
    rw [Nat.succ_mul] at h
    show a*groupDescSize+groupDescSize ≤ g.groupDescBlock.size ∧ a*groupDescSize < 2^32
    rw [hp.desc_size]
    omega
  table_in a ha := hp.le_filled.mpr (hp.table_in a ha)
  tables_disjoint := hp.tables_disjoint

/-- `write_inode` sets the link count of one inode, and changes no other inode and no other byte. -/
theorem writeInode_one {g : Globals} (hp : PartitionTables g) {d : Device} (hin : g.PartitionIn d.image)
    {i : ℕ} (h1 : 1 ≤ i) (hi : i ≤ g.superBlock.sInodesCount) (c : ℕ) :
    ∃ d', (g.writeInode i c).run d = .ok () d' ∧
      (∃ inode, (g.readInode i).run d = .ok inode d ∧
        (g.readInode i).run d' = .ok { inode with iLinksCount := c%65536 } d') ∧
      (∀ j, 1 ≤ j → j ≤ g.superBlock.sInodesCount → j ≠ i → ∃ inode,
        (g.readInode j).run d = .ok inode d ∧ (g.readInode j).run d' = .ok inode d') ∧
      d'.image.size = d.image.size ∧
      ∀ k, k ≠ g.linkPos i → k ≠ g.linkPos i+1 → d'.image.byte k = d.image.byte k := by
  have ht := hp.filled
  have hf := filled_fits hin
  have hf' := setLinks_fits ht hf (v := c) h1 hi
  refine ⟨_,ht.writeInode_run hf h1 hi,⟨_,ht.readInode_run hf h1 hi,?_⟩,?_,setLinks_size ht hf h1 hi,?_⟩
  · have hr := ht.readInode_run (d := ⟨g.filled.setLinks d.image i c,
      d.out ++ writeEvents g.filled (g.filled.inodeBlock i)⟩) hf' h1 hi
    rw [inodeAt_setLinks_self ht] at hr
    exact hr
  · intro j hj1 hj hne
    have hr := ht.readInode_run (d := ⟨g.filled.setLinks d.image i c,
      d.out ++ writeEvents g.filled (g.filled.inodeBlock i)⟩) hf' hj1 hj
    rw [inodeAt_setLinks_ne ht h1 hi hj1 hj hne] at hr
    exact ⟨_,ht.readInode_run hf hj1 hj,hr⟩
  · intro k hk hk'
    exact setLinks_byte ht hk hk'

theorem example_tables : PartitionTables (exampleGlobals 16) where
  block_pos := by decide
  sector_dvd := by decide
  length_lt := by decide
  group_pos := by decide
  table_lt := by decide
  inodes_lt := by decide
  desc_size := rfl
  desc_le := by decide
  table_in := by decide
  tables_disjoint := by decide

/-- Of the count 70000 the low 16 bits are kept. -/
theorem writeInode_one_eleven :
    ∃ d', ((exampleGlobals 16).writeInode 11 70000).run ⟨popularImage,[]⟩ = .ok () d' ∧
      (∃ inode, ((exampleGlobals 16).readInode 11).run ⟨popularImage,[]⟩ =
          .ok inode ⟨popularImage,[]⟩ ∧
        ((exampleGlobals 16).readInode 11).run d' = .ok { inode with iLinksCount := 70000%65536 } d') ∧
      (∀ j, 1 ≤ j → j ≤ (exampleGlobals 16).superBlock.sInodesCount → j ≠ 11 → ∃ inode,
        ((exampleGlobals 16).readInode j).run ⟨popularImage,[]⟩ = .ok inode ⟨popularImage,[]⟩ ∧
        ((exampleGlobals 16).readInode j).run d' = .ok inode d') ∧
      d'.image.size = popularImage.size ∧
      ∀ k, k ≠ (exampleGlobals 16).linkPos 11 → k ≠ (exampleGlobals 16).linkPos 11+1 →
        d'.image.byte k = popularImage.byte k :=
  writeInode_one example_tables (d := ⟨popularImage,[]⟩) (by decide) (by norm_num) (by decide) 70000

end MyFsck
