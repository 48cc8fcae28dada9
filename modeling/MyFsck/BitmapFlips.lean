import MyFsck.BitmapLookup
import MyFsck.InodeUpdate

/-! The block bitmaps loaded into one array, flipped there bit by bit, and stored again. -/
namespace MyFsck

open ByteBuffer ErrorState

theorem fixBlockBitmaps_eq {bm : Buf} {ids : List ℕ}
    (hids : ∀ b ∈ ids, 1 ≤ b ∧ b < 2^32 ∧ (b-1)/8 < bm.size) :
    ∃ bm', ids.foldlM fixBlockBitmapInPartition bm = some bm' ∧ bm'.size = bm.size ∧
      ∀ c, 1 ≤ c → bitAt bm' c = (bitAt bm c ^^ decide (ids.count c%2 = 1)) := by
  induction ids generalizing bm with
  | nil => exact ⟨bm,rfl,rfl,fun c _ => by simp⟩
  | cons b ids ih =>
    obtain ⟨h1,h32,hin⟩ := hids b (by simp)
    obtain ⟨bm₁,hfix,hsize,hbit⟩ := fixBlockBitmap_eq h1 h32 hin
    obtain ⟨bm',hrest,hsize',hbit'⟩ := @ih bm₁ fun c hc => by
      rw [hsize]
      exact hids c (by simp [hc])
    refine ⟨bm',?_,hsize'.trans hsize,fun c hc => ?_⟩
    · rw [List.foldlM_cons,hfix]
      exact hrest
    · rw [hbit' c hc,hbit c hc]
      by_cases hcb : c = b
      · subst hcb
        rw [if_pos rfl,List.count_cons_self,Bool.not_xor]
        rcases Nat.mod_two_eq_zero_or_one (ids.count c) with h | h
        · simp [h,Nat.add_mod]
        · simp [h,Nat.add_mod]
      · rw [if_neg hcb,List.count_cons_of_ne fun h => hcb h.symm]

theorem bitAt_gather {img : Buf} {off : ℕ → ℕ} {w n b : ℕ} (hb : b-1 < n*(8*w)) :
    bitAt (img.gather off w n) b =
      bitAt (img.slice (off ((b-1)/(8*w))) w) ((b-1)%(8*w)+1) := by
  have hw : 0 < 8*w := Nat.pos_of_ne_zero fun h0 => by simp [h0] at hb
  have hdiv := Nat.div_add_mod (b-1) (8*w)
  have hmod := Nat.mod_lt (b-1) hw
  have hgroup : (b-1)/(8*w) < n := Nat.div_lt_of_lt_mul (by rwa [Nat.mul_comm] at hb)
  rw [show 8*w*((b-1)/(8*w)) = 8*((b-1)/(8*w)*w) by ring] at hdiv
  have hbyte : (b-1)/8 = (b-1)/(8*w)*w+(b-1)%(8*w)/8 := by omega
  have hbit : (b-1)%8 = (b-1)%(8*w)%8 := by omega
  unfold bitAt
  rw [Nat.add_sub_cancel,← hbit,hbyte,Buf.gather,Buf.concat_byte _ hgroup (by omega)]

/-- A bitmap block of its own inside the partition for every group, each bit of which stands for a
block, and a descriptor of every group in the block that is loaded. -/
structure FullGroups (g : Globals) : Prop extends PartitionSizes g where
  per_eq : g.superBlock.sBlocksPerGroup = 8*g.blockSize
  per_lt : g.superBlock.sBlocksPerGroup < 2^32
  desc_size : g.groupDescBlock.size = g.blockSize
  desc_le : g.getBlockGroupNum*groupDescSize ≤ g.blockSize
  bitmap_in : ∀ a < g.getBlockGroupNum,
    (g.blockBitmap a+1)*(g.blockSize/sectorSizeBytes) ≤ g.partitionEntry.length
  bitmap_ne : ∀ a < g.getBlockGroupNum, ∀ b < g.getBlockGroupNum, a ≠ b →
    g.blockBitmap a ≠ g.blockBitmap b

theorem blockNumbers_lt (g : Globals) : g.getBlockGroupNum*g.superBlock.sBlocksPerGroup < 2^32 :=
  (Nat.div_mul_le_self _ _).trans_lt (u32_lt _)

namespace FullGroups

variable {g : Globals} (hg : FullGroups g)

include hg

theorem desc_in {a : ℕ} (ha : a < g.getBlockGroupNum) :
    a*groupDescSize+groupDescSize ≤ g.groupDescBlock.size ∧ a*groupDescSize < 2^32 := by
  have h₁ := Nat.mul_le_mul_right groupDescSize ha
  have h₂ := hg.desc_le
  have h₃ := hg.per_eq
  have h₄ := hg.per_lt
  rw [Nat.succ_mul] at h₁
  rw [hg.desc_size]
  omega

theorem oneBlockBitmaps : OneBlockBitmaps g g.getBlockGroupNum where
  sector_dvd := hg.sector_dvd
  group_num := rfl
  block_num := by
    have hper := hg.per_eq
    have hlt := hg.per_lt
    have hdvd := hg.sector_dvd
    have hpos := hg.block_pos
    refine bitmapBlocks_one (by omega) (by omega) hper.le ?_
    simp only [sectorSizeBytes,bitsPerByte] at hdvd ⊢
    omega
  size_lt := by
    have h := blockNumbers_lt g
    rw [hg.per_eq,← Nat.mul_assoc,Nat.mul_right_comm] at h
    omega
  desc a ha := by
    obtain ⟨gd,hgd,-⟩ := groupDesc_eq (hg.desc_in ha).1 (hg.desc_in ha).2
    exact ⟨gd,hgd⟩

theorem bitmap_lt {a : ℕ} (ha : a < g.getBlockGroupNum) :
    g.blockBitmap a < g.filled.superBlock.sBlocksCount := hg.le_filled.mpr (hg.bitmap_in a ha)

theorem bitmapOffset_eq {a : ℕ} (ha : a < g.getBlockGroupNum) :
    g.bitmapOffset a = g.blockOffset (g.blockBitmap a) := by
  have h32 : g.blockBitmap a < 2^32 := (num_lt _ _ _).trans_eq (by norm_num)
  rw [Globals.bitmapOffset,bitmapHome_eq (hg.desc_in ha).1 (hg.desc_in ha).2,u32_eq h32]
  exact hg.toPartitionSizes.filled.areaOffset_eq (hg.bitmap_lt ha).le

theorem bitmap_fits {img : Buf} (hin : g.PartitionIn img) {a : ℕ} (ha : a < g.getBlockGroupNum) :
    g.bitmapOffset a+g.blockSize ≤ img.size := by
  rw [hg.bitmapOffset_eq ha]
  exact hg.toPartitionSizes.filled.offset_in (filled_fits hin) (hg.bitmap_lt ha)

theorem chunksApart : Buf.ChunksApart g.bitmapOffset g.blockSize g.getBlockGroupNum := by
  intro a ha b hb hne
  rw [hg.bitmapOffset_eq ha,hg.bitmapOffset_eq hb]
  exact hg.toPartitionSizes.filled.blocks_disjoint (hg.bitmap_ne a ha b hb hne)

theorem bitAt_loaded {img : Buf} {b : ℕ} (h1 : 1 ≤ b)
    (hle : b ≤ g.getBlockGroupNum*g.superBlock.sBlocksPerGroup) :
    bitAt (img.gather g.bitmapOffset g.blockSize g.getBlockGroupNum) b = g.diskBit img b := by
  have hgroup : (b-1)/g.superBlock.sBlocksPerGroup < g.getBlockGroupNum :=
    Nat.div_lt_of_lt_mul (by rw [Nat.mul_comm]; omega)
  rw [hg.per_eq] at hle hgroup
  rw [bitAt_gather (by omega),hg.bitmapOffset_eq hgroup,Globals.diskBit,hg.per_eq]
  rfl

end FullGroups

/-- The bitmaps are loaded, flipped at the blocks of a list, stored and loaded again: a bit has changed
if its block is in the list an odd number of times, and nothing else has. -/
theorem bitmap_flips {g : Globals} (hg : FullGroups g) {d : Device} (hin : g.PartitionIn d.image)
    (ids : List ℕ)
    (hids : ∀ b ∈ ids, 1 ≤ b ∧ b ≤ g.getBlockGroupNum*g.superBlock.sBlocksPerGroup) :
    ∃ bm bm' d' bm'', g.getBlockBitmapInPartition.run d = .ok bm d ∧
      ids.foldlM fixBlockBitmapInPartition bm = some bm' ∧
      (g.writeBlockBitmapInPartition bm').run d = .ok () d' ∧
      g.getBlockBitmapInPartition.run d' = .ok bm'' d' ∧
      (∀ b, 1 ≤ b → b ≤ g.getBlockGroupNum*g.superBlock.sBlocksPerGroup →
        getBlockAllocBit bm b = some (ofBit (g.diskBit d.image b)) ∧
        getBlockAllocBit bm'' b =
          some (ofBit (g.diskBit d.image b ^^ decide (ids.count b%2 = 1)))) ∧
      Buf.AgreeOff (fun k => ∃ a < g.getBlockGroupNum, g.blockOffset (g.blockBitmap a) ≤ k ∧
        k < g.blockOffset (g.blockBitmap a)+g.blockSize) d.image d'.image := by
  have hb := hg.oneBlockBitmaps
  have hfit : ∀ a < g.getBlockGroupNum, g.bitmapOffset a+g.blockSize ≤ d.image.size :=
    fun a ha => hg.bitmap_fits hin ha
  have hplace : ∀ b, 1 ≤ b → b ≤ g.getBlockGroupNum*g.superBlock.sBlocksPerGroup →
      b < 2^32 ∧ (b-1)/8 < g.getBlockGroupNum*g.blockSize := by
    intro b h1 hle
    have hlt := blockNumbers_lt g
    rw [hg.per_eq,← Nat.mul_assoc,Nat.mul_right_comm] at hle hlt
    omega
  obtain ⟨bm',hfix,hsize,hbit⟩ := @fixBlockBitmaps_eq
    (d.image.gather g.bitmapOffset g.blockSize g.getBlockGroupNum) ids
    fun b hmem => ⟨(hids b hmem).1,hplace b (hids b hmem).1 (hids b hmem).2⟩
  obtain ⟨d',hstore,him⟩ := hb.store_run hsize d
  have hsize' : d'.image.size = d.image.size := by rw [him,Buf.scatter_size hfit]
  have hload := hb.load_run (d := d') fun a ha => by
    rw [hsize']
    exact hfit a ha
  rw [him,Buf.gather_scatter hg.chunksApart hsize] at hload
  refine ⟨_,bm',d',bm',hb.load_run hfit,hfix,hstore,hload,fun b h1 hle => ?_,hsize'.symm,fun k hk => ?_⟩
  · obtain ⟨h32,hlt⟩ := hplace b h1 hle
    have hold := @allocBit_eq (d.image.gather g.bitmapOffset g.blockSize g.getBlockGroupNum) b h1 h32 hlt
    have hnew := allocBit_eq h1 h32 (hsize ▸ hlt : (b-1)/8 < bm'.size)
    rw [hg.bitAt_loaded h1 hle] at hold
    rw [hbit b h1,hg.bitAt_loaded h1 hle] at hnew
    exact ⟨hold,hnew⟩
  · rw [him,Buf.scatter_byte_out fun a ha => ?_]
    rw [hg.bitmapOffset_eq ha]
    by_contra hno
    exact hk ⟨a,ha,by omega,by omega⟩

theorem example_full : FullGroups (exampleGlobals 16) where
  toPartitionSizes := example_tables.toPartitionSizes
  per_eq := rfl
  per_lt := by decide
  desc_size := rfl
  desc_le := by decide
  bitmap_in := by decide
  bitmap_ne := by decide

theorem bitmap_flips_twice :
    ∃ bm bm' d' bm'', (exampleGlobals 16).getBlockBitmapInPartition.run ⟨popularImage,[]⟩ =
        .ok bm ⟨popularImage,[]⟩ ∧
      [9,3,9].foldlM fixBlockBitmapInPartition bm = some bm' ∧
      ((exampleGlobals 16).writeBlockBitmapInPartition bm').run ⟨popularImage,[]⟩ = .ok () d' ∧
      (exampleGlobals 16).getBlockBitmapInPartition.run d' = .ok bm'' d' ∧
      (∀ b, 1 ≤ b →
        b ≤ (exampleGlobals 16).getBlockGroupNum*(exampleGlobals 16).superBlock.sBlocksPerGroup →
        getBlockAllocBit bm b = some (ofBit ((exampleGlobals 16).diskBit popularImage b)) ∧
        getBlockAllocBit bm'' b = some (ofBit ((exampleGlobals 16).diskBit popularImage b ^^
          decide ([9,3,9].count b%2 = 1)))) ∧
      Buf.AgreeOff (fun k => ∃ a < (exampleGlobals 16).getBlockGroupNum,
        (exampleGlobals 16).blockOffset ((exampleGlobals 16).blockBitmap a) ≤ k ∧
        k < (exampleGlobals 16).blockOffset ((exampleGlobals 16).blockBitmap a)+
          (exampleGlobals 16).blockSize) popularImage d'.image :=
  bitmap_flips example_full (d := ⟨popularImage,[]⟩) (by decide) [9,3,9] (by decide)

end MyFsck
