import MyFsck.Correct

/-! Where things are on a partition: blocks, inode tables and inodes as pure views of the image,
and what the reading and writing functions do in terms of these views. -/
namespace MyFsck

open ByteBuffer ErrorState

namespace Globals

variable (g : Globals)

/-- The byte of the image at which block `b` starts. -/
def blockOffset (b : ℕ) : ℕ :=
  (g.partitionEntry.start + b*(g.blockSize/sectorSizeBytes))*sectorSizeBytes

def blockAt (img : Buf) (b : ℕ) : Buf := img.slice (g.blockOffset b) g.blockSize

def setBlock (img : Buf) (b : ℕ) (src : Buf) : Buf := img.patch (g.blockOffset b) src

def inodeGroups : ℕ :=
  (g.superBlock.sInodesCount + g.superBlock.sInodesPerGroup - 1) / g.superBlock.sInodesPerGroup

def tableBlocks : ℕ := (g.superBlock.sInodesPerGroup*inodeSize + g.blockSize - 1) / g.blockSize

def inodeTable (group : ℕ) : ℕ := num g.groupDescBlock.byte (group*groupDescSize+8) 4
def blockBitmap (group : ℕ) : ℕ := num g.groupDescBlock.byte (group*groupDescSize) 4
def inodeBitmap (group : ℕ) : ℕ := num g.groupDescBlock.byte (group*groupDescSize+4) 4

def inodeGroup (i : ℕ) : ℕ := (i-1) / g.superBlock.sInodesPerGroup
/-- The byte of its group's inode table at which inode `i` starts. -/
def inodeOffset (i : ℕ) : ℕ := (i-1) % g.superBlock.sInodesPerGroup * inodeSize
/-- The block of the table it lies in. -/
def inodeIndex (i : ℕ) : ℕ := g.inodeOffset i/g.blockSize
def inodeBlock (i : ℕ) : ℕ := g.inodeTable (g.inodeGroup i) + g.inodeIndex i
def inodePos (i : ℕ) : ℕ := g.inodeOffset i % g.blockSize

end Globals

/-- The inode decoded from the bytes from `off` on. -/
def inodeOf (f : ℕ → Byte) (off : ℕ) : Inode where
  iMode := num f off 2
  iUid := num f (off+2) 2
  iSize := num f (off+4) 4
  iAtime := num f (off+8) 4
  iCtime := num f (off+12) 4
  iMtime := num f (off+16) 4
  iDtime := num f (off+20) 4
  iGid := num f (off+24) 2
  iLinksCount := num f (off+26) 2
  iBlocks := num f (off+28) 4
  iFlags := num f (off+32) 4
  iBlock := (List.range ext2NBlocks).map fun i => num f (off+40+i*4) 4

def Globals.inodeAt (g : Globals) (img : Buf) (i : ℕ) : Inode :=
  inodeOf (g.blockAt img (g.inodeBlock i)).byte (g.inodePos i)

/-- Blocks of whole sectors, and no overflow of a `__u32` where one is looked up. -/
structure BlockSizes (g : Globals) : Prop where
  block_pos : 0 < g.blockSize
  sector_dvd : sectorSizeBytes ∣ g.blockSize
  sectors_lt : g.superBlock.sBlocksCount*(g.blockSize/sectorSizeBytes) < 2^32

/-- No overflow of a `__u32` in the size of an inode table either. -/
structure TableSizes (g : Globals) : Prop extends BlockSizes g where
  group_pos : 0 < g.superBlock.sInodesPerGroup
  table_le : g.superBlock.sInodesPerGroup*inodeSize + g.blockSize ≤ 2^32

/-- What the reading of an inode of group `a` relies on. -/
structure TableReadable (g : Globals) (a : ℕ) : Prop extends TableSizes g where
  desc_le : a*groupDescSize+groupDescSize ≤ g.groupDescBlock.size
  desc_lt : a*groupDescSize < 2^32
  table_in : g.inodeTable a + g.tableBlocks ≤ g.superBlock.sBlocksCount

/-- What the program relies on in the superblock and the group descriptors: whole sectors, no
overflow of a `__u32`, and an inode table of its own inside the file system for every group. -/
structure Geometry (g : Globals) : Prop where
  block_pos : 0 < g.blockSize
  sector_dvd : sectorSizeBytes ∣ g.blockSize
  sectors_lt : g.superBlock.sBlocksCount*(g.blockSize/sectorSizeBytes) < 2^32
  group_pos : 0 < g.superBlock.sInodesPerGroup
  table_le : g.superBlock.sInodesPerGroup*inodeSize + g.blockSize ≤ 2^32
  inodes_le : g.superBlock.sInodesCount + g.superBlock.sInodesPerGroup ≤ 2^32
  desc_size : g.groupDescBlock.size = g.blockSize
  desc_le : g.inodeGroups*groupDescSize ≤ g.blockSize
  desc_lt : g.inodeGroups*groupDescSize < 2^32
  table_in : ∀ a < g.inodeGroups,
    1 ≤ g.inodeTable a ∧ g.inodeTable a + g.tableBlocks ≤ g.superBlock.sBlocksCount
  tables_disjoint : ∀ a < g.inodeGroups, ∀ b < g.inodeGroups, a ≠ b →
    g.inodeTable a + g.tableBlocks ≤ g.inodeTable b ∨ g.inodeTable b + g.tableBlocks ≤ g.inodeTable a

instance (g : Globals) : Decidable (Geometry g) :=
  decidable_of_iff (0 < g.blockSize ∧ sectorSizeBytes ∣ g.blockSize ∧
    g.superBlock.sBlocksCount*(g.blockSize/sectorSizeBytes) < 2^32 ∧
    0 < g.superBlock.sInodesPerGroup ∧
    g.superBlock.sInodesPerGroup*inodeSize + g.blockSize ≤ 2^32 ∧
    g.superBlock.sInodesCount + g.superBlock.sInodesPerGroup ≤ 2^32 ∧
    g.groupDescBlock.size = g.blockSize ∧ g.inodeGroups*groupDescSize ≤ g.blockSize ∧
    g.inodeGroups*groupDescSize < 2^32 ∧
    (∀ a < g.inodeGroups, 1 ≤ g.inodeTable a ∧
      g.inodeTable a + g.tableBlocks ≤ g.superBlock.sBlocksCount) ∧
    ∀ a < g.inodeGroups, ∀ b < g.inodeGroups, a ≠ b →
      g.inodeTable a + g.tableBlocks ≤ g.inodeTable b ∨
        g.inodeTable b + g.tableBlocks ≤ g.inodeTable a)
    ⟨fun ⟨h₁,h₂,h₃,h₄,h₅,h₆,h₇,h₈,h₉,h₁₀,h₁₁⟩ => ⟨h₁,h₂,h₃,h₄,h₅,h₆,h₇,h₈,h₉,h₁₀,h₁₁⟩,
      fun ⟨h₁,h₂,h₃,h₄,h₅,h₆,h₇,h₈,h₉,h₁₀,h₁₁⟩ => ⟨h₁,h₂,h₃,h₄,h₅,h₆,h₇,h₈,h₉,h₁₀,h₁₁⟩⟩

theorem Geometry.tables {g : Globals} (hg : Geometry g) : TableSizes g where
  block_pos := hg.block_pos
  sector_dvd := hg.sector_dvd
  sectors_lt := hg.sectors_lt
  group_pos := hg.group_pos
  table_le := hg.table_le

theorem Geometry.sizes {g : Globals} (hg : Geometry g) : BlockSizes g := hg.tables.toBlockSizes

/-- The inode tables of the groups are runs of blocks of their own inside the file system, and their
descriptors are in the block that is loaded. -/
structure InodeTables (g : Globals) : Prop extends TableSizes g where
  inodes_lt : g.superBlock.sInodesCount < 2^32
  desc_in : ∀ a < g.inodeGroups,
    a*groupDescSize+groupDescSize ≤ g.groupDescBlock.size ∧ a*groupDescSize < 2^32
  table_in : ∀ a < g.inodeGroups, g.inodeTable a + g.tableBlocks ≤ g.superBlock.sBlocksCount
  tables_disjoint : ∀ a < g.inodeGroups, ∀ b < g.inodeGroups, a ≠ b →
    g.inodeTable a + g.tableBlocks ≤ g.inodeTable b ∨ g.inodeTable b + g.tableBlocks ≤ g.inodeTable a

theorem InodeTables.readable {g : Globals} (ht : InodeTables g) {a : ℕ} (ha : a < g.inodeGroups) :
    TableReadable g a where
  toTableSizes := ht.toTableSizes
  desc_le := (ht.desc_in a ha).1
  desc_lt := (ht.desc_in a ha).2
  table_in := ht.table_in a ha

theorem Geometry.inodeTables {g : Globals} (hg : Geometry g) : InodeTables g where
  toTableSizes := hg.tables
  inodes_lt := by
    have h₁ := hg.inodes_le
    have h₂ := hg.group_pos
    omega
  desc_in a ha := by
    have h := Nat.mul_le_mul_right groupDescSize ha
    rw [Nat.succ_mul] at h
    refine ⟨?_,(Nat.mul_le_mul_right _ ha.le).trans_lt hg.desc_lt⟩
    rw [hg.desc_size]
    exact h.trans hg.desc_le
  table_in a ha := (hg.table_in a ha).2
  tables_disjoint := hg.tables_disjoint

theorem Geometry.readable {g : Globals} (hg : Geometry g) {a : ℕ} (ha : a < g.inodeGroups) :
    TableReadable g a := hg.inodeTables.readable ha

/-- All blocks of the file system are in the image. -/
def Globals.Fits (g : Globals) (img : Buf) : Prop := g.blockOffset g.superBlock.sBlocksCount ≤ img.size

instance (g : Globals) (img : Buf) : Decidable (g.Fits img) := inferInstanceAs (Decidable (_ ≤ _))

namespace Globals

variable (g : Globals)

def areaOffset (b : ℕ) : ℕ := blockSector g.partitionEntry.start g.blockSize b*sectorSizeBytes

def InArea (b k : ℕ) : Prop :=
  g.areaOffset b ≤ k ∧ k < g.areaOffset b+sectorSizeBytes*(g.blockSize/sectorSizeBytes)

end Globals

/-- The descriptor of a group. -/
def Globals.groupDesc (g : Globals) (group : ℕ) : Option GroupDesc :=
  decodeGroupDesc g.groupDescBlock (u32 (group*groupDescSize))

section Blocks

variable {g : Globals} {img : Buf}

@[simp] theorem blockAt_size (b : ℕ) : (g.blockAt img b).size = g.blockSize := rfl

theorem BlockSizes.sector_mul (hg : BlockSizes g) :
    sectorSizeBytes*(g.blockSize/sectorSizeBytes) = g.blockSize :=
  Nat.mul_div_cancel' hg.sector_dvd

theorem BlockSizes.offset_eq (hg : BlockSizes g) (b : ℕ) :
    g.blockOffset b = g.partitionEntry.start*sectorSizeBytes + b*g.blockSize := by
  unfold Globals.blockOffset
  rw [Nat.add_mul,Nat.mul_assoc,Nat.mul_comm (g.blockSize/sectorSizeBytes),hg.sector_mul]

theorem BlockSizes.offset_le (hg : BlockSizes g) {b n : ℕ} (h : b < n) :
    g.blockOffset b + g.blockSize ≤ g.blockOffset n := by
  have h₁ : (b+1)*g.blockSize ≤ n*g.blockSize := Nat.mul_le_mul_right _ h
  rw [Nat.add_mul,Nat.one_mul] at h₁
  rw [hg.offset_eq,hg.offset_eq]
  omega

theorem BlockSizes.offset_in (hg : BlockSizes g) (hf : g.Fits img) {b : ℕ}
    (hb : b < g.superBlock.sBlocksCount) : g.blockOffset b + g.blockSize ≤ img.size :=
  (hg.offset_le hb).trans hf

theorem BlockSizes.blocks_disjoint (hg : BlockSizes g) {b c : ℕ} (h : b ≠ c) :
    g.blockOffset b + g.blockSize ≤ g.blockOffset c ∨
      g.blockOffset c + g.blockSize ≤ g.blockOffset b := by
  rcases Nat.lt_or_gt_of_ne h with h | h
  · exact Or.inl (hg.offset_le h)
  · exact Or.inr (hg.offset_le h)

theorem BlockSizes.areaOffset_eq (hg : BlockSizes g) {b : ℕ} (hb : b ≤ g.superBlock.sBlocksCount) :
    g.areaOffset b = g.blockOffset b := by
  unfold Globals.areaOffset blockSector Globals.blockOffset
  rw [u32_eq]
  exact (Nat.mul_le_mul_right _ hb).trans_lt hg.sectors_lt

theorem block_area_run (hdvd : sectorSizeBytes ∣ g.blockSize) {d : Device} {b : ℕ}
    (hin : g.areaOffset b+g.blockSize ≤ d.image.size) :
    (g.block b).run d = .ok (d.image.slice (g.areaOffset b) g.blockSize) d := by
  unfold Globals.areaOffset at hin ⊢
  unfold Globals.block readBlock readSectors
  rw [bind_ok (EStateM.run_get d),Nat.mul_div_cancel' hdvd,Buf.window_eq hin]
  rfl

theorem block_area_stops (hdvd : sectorSizeBytes ∣ g.blockSize) {d : Device} {b : ℕ}
    (hin : ¬ g.areaOffset b+g.blockSize ≤ d.image.size) : (g.block b).run d = .error .exit d := by
  unfold Globals.areaOffset at hin
  unfold Globals.block readBlock readSectors
  rw [bind_ok (EStateM.run_get d),Nat.mul_div_cancel' hdvd,Buf.window,if_neg hin]
  rfl

theorem block_run (hg : BlockSizes g) {d : Device} (hf : g.Fits d.image) {b : ℕ}
    (hb : b < g.superBlock.sBlocksCount) : (g.block b).run d = .ok (g.blockAt d.image b) d := by
  have harea := hg.areaOffset_eq hb.le
  rw [block_area_run hg.sector_dvd (by rw [harea]; exact hg.offset_in hf hb),harea]
  rfl

/-- What a call of `write_block` puts on the log and on standard output. -/
def writeEvents (g : Globals) (b : ℕ) : List Event :=
  [.writeBlock b,.writeSectors (blockSector g.partitionEntry.start g.blockSize b)
    (g.blockSize/sectorSizeBytes)]

theorem write_area_run (hdvd : sectorSizeBytes ∣ g.blockSize) {d : Device} {b pos : ℕ} {src : Buf}
    (hs : pos+g.blockSize ≤ src.size) : (g.write b src pos).run d =
      .ok () ⟨d.image.patch (g.areaOffset b) (src.slice pos g.blockSize),d.out ++ writeEvents g b⟩ := by
  have hw : src.window pos (sectorSizeBytes*(g.blockSize/sectorSizeBytes)) =
      some (src.slice pos g.blockSize) := by rw [Nat.mul_div_cancel' hdvd,Buf.window_eq hs]
  simp only [Globals.write,writeBlock,writeSectors,EStateM.run_bind,print_run,hw,inBounds_some,
    EStateM.run_modify,Globals.areaOffset,writeEvents,List.append_assoc,List.cons_append,
    List.nil_append]

theorem write_run (hg : BlockSizes g) {d : Device} {b pos : ℕ} {src : Buf}
    (hb : b < g.superBlock.sBlocksCount) (hs : pos+g.blockSize ≤ src.size) :
    (g.write b src pos).run d =
      .ok () ⟨g.setBlock d.image b (src.slice pos g.blockSize),d.out ++ writeEvents g b⟩ := by
  rw [write_area_run hg.sector_dvd hs,hg.areaOffset_eq hb.le]
  rfl

theorem blockAt_setBlock_self {b : ℕ} {src : Buf} (hs : src.size = g.blockSize) :
    g.blockAt (g.setBlock img b src) b = src := Buf.slice_patch_self hs

theorem blockAt_setBlock_ne (hg : BlockSizes g) {b c : ℕ} {src : Buf} (hs : src.size = g.blockSize)
    (h : c ≠ b) : g.blockAt (g.setBlock img b src) c = g.blockAt img c := by
  refine Buf.slice_patch_disjoint ?_
  rw [hs]
  exact hg.blocks_disjoint h

theorem setBlock_size (hg : BlockSizes g) (hf : g.Fits img) {b : ℕ} {src : Buf}
    (hb : b < g.superBlock.sBlocksCount) (hs : src.size = g.blockSize) :
    (g.setBlock img b src).size = img.size :=
  Buf.patch_size_of_le (hs ▸ hg.offset_in hf hb)

theorem setBlock_fits (hg : BlockSizes g) (hf : g.Fits img) {b : ℕ} {src : Buf}
    (hb : b < g.superBlock.sBlocksCount) (hs : src.size = g.blockSize) :
    g.Fits (g.setBlock img b src) := by
  unfold Globals.Fits
  rw [setBlock_size hg hf hb hs]
  exact hf

theorem setBlock_self (hg : BlockSizes g) (hf : g.Fits img) {b : ℕ}
    (hb : b < g.superBlock.sBlocksCount) : g.setBlock img b (g.blockAt img b) = img :=
  Buf.patch_slice_self (hg.offset_in hf hb)

theorem setBlock_byte_eq {b : ℕ} {src : Buf} (hs : src.size = g.blockSize) {k : ℕ}
    (h : ∀ j < g.blockSize, k = g.blockOffset b + j → src.byte j = (g.blockAt img b).byte j) :
    (g.setBlock img b src).byte k = img.byte k := by
  unfold Globals.setBlock
  by_cases hk : g.blockOffset b ≤ k ∧ k < g.blockOffset b + src.size
  · have h₁ := h (k-g.blockOffset b) (by omega) (by omega)
    rw [Buf.patch_byte_in hk.1 hk.2,h₁,Globals.blockAt,Buf.slice_byte _ (by omega)]
    congr 1
    omega
  · exact Buf.patch_byte_out (by omega)

end Blocks

section Inodes

variable {g : Globals} {img : Buf}

theorem inodeOf_congr {f f' : ℕ → Byte} {off off' : ℕ}
    (h : ∀ k < inodeSize, f (off+k) = f' (off'+k)) : inodeOf f off = inodeOf f' off' := by
  have field : ∀ p n, p+n ≤ inodeSize → num f (off+p) n = num f' (off'+p) n := fun p n hp =>
    num_congr fun k hk => by
      rw [Nat.add_assoc,Nat.add_assoc]
      exact h _ (by omega)
  have hblocks : (List.range ext2NBlocks).map (fun i => num f (off+40+i*4) 4) =
      (List.range ext2NBlocks).map (fun i => num f' (off'+40+i*4) 4) := by
    refine List.map_congr_left fun i hi => ?_
    have hi' : i < 15 := List.mem_range.mp hi
    rw [Nat.add_assoc,Nat.add_assoc]
    exact field _ _ (by simp only [inodeSize]; omega)
  have h0 := field 0 2 (by decide)
  simp only [Nat.add_zero] at h0
  simp only [inodeOf,h0,field 2 2 (by decide),field 4 4 (by decide),field 8 4 (by decide),
    field 12 4 (by decide),field 16 4 (by decide),field 20 4 (by decide),field 24 2 (by decide),
    field 26 2 (by decide),field 28 4 (by decide),field 32 4 (by decide),hblocks]

theorem mapM_some {α β : Type} {f : α → Option β} {h : α → β} (l : List α)
    (hf : ∀ a ∈ l, f a = some (h a)) : l.mapM f = some (l.map h) := by
  induction l with
  | nil => rfl
  | cons a l ih =>
    rw [List.mapM_cons,hf a (by simp),ih fun b hb => hf b (by simp [hb])]
    rfl

theorem decodeInode_eq {t : Buf} {off : ℕ} (h : off+inodeSize ≤ t.size) :
    decodeInode t off = some (inodeOf t.byte off) := by
  simp only [inodeSize] at h
  have hb : (List.range ext2NBlocks).mapM (fun i => parse t (off+40+i*4) 4) =
      some ((List.range ext2NBlocks).map fun i => num t.byte (off+40+i*4) 4) := by
    refine mapM_some _ fun i hi => parse_eq (by norm_num) ?_
    have hi' : i < 15 := List.mem_range.mp hi
    omega
  unfold decodeInode
  rw [hb,parse_eq (by norm_num) (by omega),parse_eq (by norm_num) (by omega),
    parse_eq (by norm_num) (by omega),parse_eq (by norm_num) (by omega),
    parse_eq (by norm_num) (by omega),parse_eq (by norm_num) (by omega),
    parse_eq (by norm_num) (by omega),parse_eq (by norm_num) (by omega),
    parse_eq (by norm_num) (by omega),parse_eq (by norm_num) (by omega),
    parse_eq (by norm_num) (by omega)]
  rfl

theorem readGroupDesc_run (d : Device) (id : ℕ) (h : id*groupDescSize+groupDescSize ≤ g.groupDescBlock.size)
    (h32 : id*groupDescSize < 2^32) : ∃ gd, (readGroupDesc g id).run d = .ok gd d ∧
      gd.bgBlockBitmap = g.blockBitmap id ∧ gd.bgInodeBitmap = g.inodeBitmap id ∧
      gd.bgInodeTable = g.inodeTable id := by
  simp only [groupDescSize] at h h32
  unfold readGroupDesc decodeGroupDesc
  rw [u32_eq (by simpa [groupDescSize] using h32)]
  simp only [groupDescSize]
  rw [parse_eq (by norm_num) (by omega),parse_eq (by norm_num) (by omega),
    parse_eq (by norm_num) (by omega),parse_eq (by norm_num) (by omega),
    parse_eq (by norm_num) (by omega),parse_eq (by norm_num) (by omega)]
  exact ⟨_,rfl,rfl,rfl,rfl⟩

theorem TableSizes.tableBlocks_eq (hg : TableSizes g) : g.getGroupInodeBlockNum = g.tableBlocks := by
  have h := hg.table_le
  have hp := hg.block_pos
  have he : u32 (g.superBlock.sInodesPerGroup*inodeSize+g.blockSize+(2^32-1)) =
      g.superBlock.sInodesPerGroup*inodeSize+g.blockSize-1 := by
    unfold u32
    omega
  rw [Globals.getGroupInodeBlockNum,he,Globals.tableBlocks]

theorem TableSizes.table_bytes (hg : TableSizes g) :
    g.superBlock.sInodesPerGroup*inodeSize ≤ g.tableBlocks*g.blockSize ∧
      g.tableBlocks*g.blockSize < 2^32 := by
  have hp := hg.block_pos
  have h := hg.table_le
  have h₁ := Nat.div_add_mod (g.superBlock.sInodesPerGroup*inodeSize+g.blockSize-1) g.blockSize
  have h₂ := Nat.mod_lt (g.superBlock.sInodesPerGroup*inodeSize+g.blockSize-1) hp
  have h₃ : g.tableBlocks*g.blockSize =
      g.blockSize*((g.superBlock.sInodesPerGroup*inodeSize+g.blockSize-1)/g.blockSize) :=
    Nat.mul_comm _ _
  omega

theorem overlayLoop_run {d : Device} {w n : ℕ} {chunk : ℕ → Buf} {read : ℕ → Fsck Buf}
    {pos : ℕ → ℕ} (hs : ∀ i < n, (chunk i).size = w) (hp : ∀ i < n, pos i = i*w)
    (hr : ∀ i < n, (read i).run d = .ok (chunk i) d) :
    ((List.range n).foldlM (fun (buf : Buf) i => do
      let b ← read i
      inBounds (buf.overlay (pos i) b)) (Buf.zero (n*w))).run d = .ok (Buf.concat w n chunk) d := by
  have key : ∀ m ≤ n, ((List.range m).foldlM (fun (buf : Buf) i => do
      let b ← read i
      inBounds (buf.overlay (pos i) b)) (Buf.zero (n*w))).run d =
        .ok (Buf.ofFn (n*w) fun k => if k < m*w then (Buf.concat w n chunk).byte k else 0) d := by
    intro m
    induction m with
    | zero => intro _; simp [Buf.zero]
    | succ m ih =>
      intro hm
      have hle := Nat.mul_le_mul_right w hm
      rw [Nat.succ_mul] at hle
      rw [List.range_succ,List.foldlM_append,bind_ok (ih (by omega)),List.foldlM_cons]
      simp only [EStateM.run_bind,hr m hm,hp m hm]
      rw [Buf.overlay_eq (by rw [hs m hm]; exact hle),Buf.patch_chunk hm (hs m hm)]
      rfl
  rw [key n le_rfl]
  congr 1
  refine Buf.ext_byte rfl fun k hk => ?_
  rw [Buf.ofFn_size] at hk
  rw [Buf.ofFn_byte_lt _ hk,if_pos hk]

/-- The blocks `start, …, start+n-1` one behind the other. -/
def Globals.blocksAt (g : Globals) (img : Buf) (start n : ℕ) : Buf :=
  Buf.concat g.blockSize n fun i => g.blockAt img (start+i)

@[simp] theorem blocksAt_size (start n : ℕ) : (g.blocksAt img start n).size = n*g.blockSize := rfl

theorem BlockSizes.count_le (hg : BlockSizes g) : g.superBlock.sBlocksCount ≤ 2^32 := by
  have h₂ : 0 < g.blockSize/sectorSizeBytes :=
    Nat.div_pos (Nat.le_of_dvd hg.block_pos hg.sector_dvd) (by decide)
  exact (Nat.le_mul_of_pos_right _ h₂).trans hg.sectors_lt.le

theorem blocksAt_slice {start n i : ℕ} (hi : i < n) :
    (g.blocksAt img start n).slice (i*g.blockSize) g.blockSize = g.blockAt img (start+i) :=
  Buf.concat_slice hi rfl

theorem readBlocks_run (hg : BlockSizes g) {d : Device} (hf : g.Fits d.image) {start n : ℕ}
    (h : start+n ≤ g.superBlock.sBlocksCount) :
    (g.readBlocks start n (n*g.blockSize)).run d = .ok (g.blocksAt d.image start n) d := by
  have hlt := hg.count_le
  refine overlayLoop_run (fun _ _ => rfl) (fun i _ => Nat.mul_comm _ _) fun i hi => ?_
  rw [u32_eq (by omega)]
  exact block_run hg hf (by omega)

theorem le_roundUp {n p : ℕ} (hp : 0 < p) : n ≤ (n+p-1)/p*p := by
  have h₁ := Nat.div_add_mod (n+p-1) p
  have h₂ := Nat.mod_lt (n+p-1) hp
  rw [Nat.mul_comm] at h₁
  omega

theorem div_lt_roundUp {m n p : ℕ} (hp : 0 < p) (h : m < n) : m/p < (n+p-1)/p := by
  rw [Nat.div_lt_iff_lt_mul hp]
  exact h.trans_le (le_roundUp hp)

theorem TableSizes.inodeGroup_lt (hg : TableSizes g) {i : ℕ} (h1 : 1 ≤ i)
    (hi : i ≤ g.superBlock.sInodesCount) : g.inodeGroup i < g.inodeGroups :=
  div_lt_roundUp hg.group_pos (by omega)

theorem Geometry.inodeGroup_lt (hg : Geometry g) {i : ℕ} (h1 : 1 ≤ i)
    (hi : i ≤ g.superBlock.sInodesCount) : g.inodeGroup i < g.inodeGroups :=
  hg.tables.inodeGroup_lt h1 hi

theorem TableSizes.inodeOffset_le (hg : TableSizes g) (i : ℕ) :
    g.inodeOffset i + inodeSize ≤ g.superBlock.sInodesPerGroup*inodeSize := by
  have h := Nat.mod_lt (i-1) hg.group_pos
  unfold Globals.inodeOffset
  calc _ = ((i-1)%g.superBlock.sInodesPerGroup+1)*inodeSize := by ring
    _ ≤ _ := Nat.mul_le_mul_right _ h

theorem TableSizes.inodePos_le (hg : TableSizes g) (i : ℕ) :
    g.inodePos i + inodeSize ≤ g.blockSize := by
  have hd : inodeSize ∣ g.blockSize := Dvd.dvd.trans (by decide) hg.sector_dvd
  have hp := Nat.mod_lt (g.inodeOffset i) hg.block_pos
  have hm : inodeSize ∣ g.inodePos i := (Nat.dvd_mod_iff hd).mpr (Dvd.intro_left _ rfl)
  obtain ⟨a,ha⟩ := hd
  obtain ⟨b,hb⟩ := hm
  have hab : b < a := by
    by_contra hle
    have := Nat.mul_le_mul_left inodeSize (Nat.not_lt.mp hle)
    simp only [Globals.inodePos] at hb
    omega
  calc g.inodePos i + inodeSize = inodeSize*(b+1) := by rw [hb]; ring
    _ ≤ inodeSize*a := Nat.mul_le_mul_left _ hab
    _ = g.blockSize := ha.symm

theorem TableSizes.inodeIndex_lt (hg : TableSizes g) (i : ℕ) :
    g.inodeIndex i < g.tableBlocks := by
  have h₁ := hg.inodeOffset_le i
  have h₂ := hg.table_bytes.1
  rw [Globals.inodeIndex,Nat.div_lt_iff_lt_mul hg.block_pos]
  simp only [inodeSize] at h₁ h₂
  omega

theorem InodeTables.inodeBlock_lt (ht : InodeTables g) {i : ℕ} (h1 : 1 ≤ i)
    (hi : i ≤ g.superBlock.sInodesCount) : g.inodeBlock i < g.superBlock.sBlocksCount := by
  have h₁ := ht.table_in _ (ht.inodeGroup_lt h1 hi)
  have h₂ := ht.inodeIndex_lt i
  simp only [Globals.inodeBlock]
  omega

theorem Geometry.inodeBlock_lt (hg : Geometry g) {i : ℕ} (h1 : 1 ≤ i)
    (hi : i ≤ g.superBlock.sInodesCount) :
    1 ≤ g.inodeBlock i ∧ g.inodeBlock i < g.superBlock.sBlocksCount :=
  ⟨Nat.le_add_right_of_le (hg.table_in _ (hg.inodeGroup_lt h1 hi)).1,hg.inodeTables.inodeBlock_lt h1 hi⟩

theorem pred32_eq {n : ℕ} (h1 : 1 ≤ n) (h : n < 2^32) : pred32 n = n-1 := by
  unfold pred32 u32
  omega

theorem Geometry.inodesCount_lt (hg : Geometry g) : g.superBlock.sInodesCount < 2^32 :=
  hg.inodeTables.inodes_lt

theorem TableReadable.table_run {i : ℕ} (hg : TableReadable g (g.inodeGroup i)) {d : Device}
    (hf : g.Fits d.image) (h1 : 1 ≤ i) (hi : i < 2^32) :
    ∃ gd, (readGroupDesc g (g.getInodeGroupOffset i)).run d = .ok gd d ∧
      gd.bgInodeTable = g.inodeTable (g.inodeGroup i) ∧
      (g.readGroupInodeTable gd.bgInodeTable).run d =
        .ok (g.blocksAt d.image (g.inodeTable (g.inodeGroup i)) g.tableBlocks) d ∧
      u32 (g.getInodeOffsetInGroup i*inodeSize) = g.inodeOffset i := by
  have heq : g.getInodeGroupOffset i = g.inodeGroup i := by
    unfold Globals.getInodeGroupOffset Globals.inodeGroup
    rw [pred32_eq h1 hi]
  obtain ⟨gd,hgd,-,-,ht⟩ := readGroupDesc_run (g := g) d (g.inodeGroup i) hg.desc_le hg.desc_lt
  refine ⟨gd,heq ▸ hgd,ht,?_,?_⟩
  · unfold Globals.readGroupInodeTable
    rw [hg.tableBlocks_eq,u32_eq hg.table_bytes.2,ht]
    exact readBlocks_run hg.toBlockSizes hf hg.table_in
  · unfold Globals.getInodeOffsetInGroup
    rw [pred32_eq h1 hi]
    refine u32_eq ?_
    have h₁ := hg.inodeOffset_le i
    have h₂ := hg.table_le
    have h₃ := hg.block_pos
    simp only [Globals.inodeOffset] at h₁
    simp only [inodeSize] at *
    omega

theorem inodeOffset_split (i : ℕ) :
    g.inodeOffset i = g.inodeIndex i*g.blockSize + g.inodePos i := by
  rw [Globals.inodeIndex,Globals.inodePos,Nat.mul_comm]
  exact (Nat.div_add_mod _ _).symm

theorem TableReadable.readInode_run {i : ℕ} (hg : TableReadable g (g.inodeGroup i)) {d : Device}
    (hf : g.Fits d.image) (h1 : 1 ≤ i) (hi : i < 2^32) :
    (g.readInode i).run d = .ok (g.inodeAt d.image i) d := by
  obtain ⟨gd,hgd,_,hrt,hoff⟩ := hg.table_run hf h1 hi
  have hle : g.inodeOffset i + inodeSize ≤
      (g.blocksAt d.image (g.inodeTable (g.inodeGroup i)) g.tableBlocks).size :=
    (hg.inodeOffset_le i).trans hg.table_bytes.1
  unfold Globals.readInode
  rw [checkDivisor_pos hg.group_pos,pure_bind,bind_ok hgd,bind_ok hrt]
  dsimp only
  have heq : inodeOf (g.blocksAt d.image (g.inodeTable (g.inodeGroup i)) g.tableBlocks).byte
      (g.inodeOffset i) = g.inodeAt d.image i := by
    refine inodeOf_congr fun k hk => ?_
    have hpos := hg.inodePos_le i
    conv_lhs => rw [inodeOffset_split i,Nat.add_assoc]
    exact Buf.concat_byte _ (hg.inodeIndex_lt i) (by omega)
  rw [hoff,decodeInode_eq hle,inBounds_some,heq]

theorem InodeTables.readInode_run (ht : InodeTables g) {d : Device} (hf : g.Fits d.image) {i : ℕ}
    (h1 : 1 ≤ i) (hi : i ≤ g.superBlock.sInodesCount) :
    (g.readInode i).run d = .ok (g.inodeAt d.image i) d :=
  (ht.readable (ht.inodeGroup_lt h1 hi)).readInode_run hf h1 (hi.trans_lt ht.inodes_lt)

theorem readInode_run (hg : Geometry g) {d : Device} (hf : g.Fits d.image) {i : ℕ} (h1 : 1 ≤ i)
    (hi : i ≤ g.superBlock.sInodesCount) : (g.readInode i).run d = .ok (g.inodeAt d.image i) d :=
  hg.inodeTables.readInode_run hf h1 hi

/-- The image with the link count of inode `i` set to the low 16 bits of `v`. -/
def Globals.setLinks (g : Globals) (img : Buf) (i v : ℕ) : Buf :=
  g.setBlock img (g.inodeBlock i)
    ((g.blockAt img (g.inodeBlock i)).putNum (g.inodePos i+26) v 2)

theorem InodeTables.writeInode_run (ht : InodeTables g) {d : Device} (hf : g.Fits d.image) {i v : ℕ}
    (h1 : 1 ≤ i) (hi : i ≤ g.superBlock.sInodesCount) : (g.writeInode i v).run d =
      .ok () ⟨g.setLinks d.image i v,d.out ++ writeEvents g (g.inodeBlock i)⟩ := by
  obtain ⟨gd,hgd,htab,hrt,hoff⟩ :=
    (ht.readable (ht.inodeGroup_lt h1 hi)).table_run hf h1 (hi.trans_lt ht.inodes_lt)
  have hpos := ht.inodePos_le i
  have hidx := ht.inodeIndex_lt i
  have htb := ht.table_in _ (ht.inodeGroup_lt h1 hi)
  have hlt := ht.count_le
  have hsz : g.inodeIndex i*g.blockSize+g.blockSize ≤ g.tableBlocks*g.blockSize := by
    have := Nat.mul_le_mul_right g.blockSize hidx
    rwa [Nat.succ_mul] at this
  simp only [inodeSize] at hpos
  unfold Globals.writeInode
  rw [checkDivisor_pos ht.group_pos,pure_bind,bind_ok hgd,bind_ok hrt]
  dsimp only
  rw [hoff,show g.inodeOffset i%g.blockSize = g.inodePos i from rfl,
    show g.inodeOffset i/g.blockSize = g.inodeIndex i from rfl,
    writeNumberIntoBlock_eq (by rw [blocksAt_size]; omega)]
  rw [bind_ok (inBounds_some _ d),htab,u32_eq (by omega)]
  rw [show g.inodeTable (g.inodeGroup i)+g.inodeIndex i = g.inodeBlock i from rfl,
    write_run ht.toBlockSizes (ht.inodeBlock_lt h1 hi)
    (by rw [Buf.putNum_size,blocksAt_size]; omega)]
  rw [Buf.slice_putNum (by omega) (by rw [blocksAt_size]; omega),
    blocksAt_slice hidx]
  rfl

theorem writeInode_run (hg : Geometry g) {d : Device} (hf : g.Fits d.image) {i v : ℕ} (h1 : 1 ≤ i)
    (hi : i ≤ g.superBlock.sInodesCount) : (g.writeInode i v).run d =
      .ok () ⟨g.setLinks d.image i v,d.out ++ writeEvents g (g.inodeBlock i)⟩ :=
  hg.inodeTables.writeInode_run hf h1 hi

end Inodes

/-- The bytes of the first piece that covers an index; a piece is a start, a length and its bytes. -/
def pieces : List (ℕ × ℕ × (ℕ → ℕ)) → ℕ → Byte
  | [], _ => 0
  | (start,len,f)::ps, i =>
    if start ≤ i ∧ i < start+len then BitVec.ofNat 8 (f (i-start)) else pieces ps i

def piece (start : ℕ) (bytes : List ℕ) : ℕ × ℕ × (ℕ → ℕ) :=
  (start,bytes.length,fun j => bytes.getD j 0)

def littleEndian (v : ℕ) : ℕ → List ℕ
  | 0 => []
  | n+1 => v % 256 :: littleEndian (v/256) n

def inodeBytes (mode size links : ℕ) (blocks : List ℕ) : List ℕ :=
  littleEndian mode 2 ++ [0,0] ++ littleEndian size 4 ++ List.replicate 18 0 ++
    littleEndian links 2 ++ List.replicate 12 0 ++ blocks.flatMap fun b => littleEndian b 4

def entryBytes (inode rec_len file_type : ℕ) (name : List ℕ) : List ℕ :=
  littleEndian inode 4 ++ littleEndian rec_len 2 ++ [name.length,file_type] ++ name

/-- A partition at sector 1 with one group of 16 inodes: the bitmaps are blocks 3 and 4, the inode
table is blocks 5 and 6. -/
def exampleGlobals (blocks_count : ℕ) : Globals where
  partitionEntry := ⟨ext2Fs,1,2*blocks_count⟩
  superBlock := ⟨16,blocks_count,0,0,0,1,0,0,8192,8192,16,0,0,0,20,0xEF53,1,1,0,0,0,0,1,0,0,11,128,
    0,0,2,0⟩
  blockSize := 1024
  groupDescBlock := Buf.ofFn 1024
    (pieces [piece 0 (littleEndian 3 4 ++ littleEndian 4 4 ++ littleEndian 5 4)])

def exampleImage (blocks_count : ℕ) (ps : List (ℕ × ℕ × (ℕ → ℕ))) : Buf :=
  Buf.ofFn (512+1024*blocks_count) (pieces ps)

/-- The bytes of block `b` from `pos` on. -/
def blockPiece (b pos : ℕ) (bytes : List ℕ) : ℕ × ℕ × (ℕ → ℕ) := piece (512+1024*b+pos) bytes

def inodePiece (i : ℕ) (bytes : List ℕ) : ℕ × ℕ × (ℕ → ℕ) := blockPiece 5 (128*(i-1)) bytes

example : Geometry (exampleGlobals 16) := by decide

end MyFsck
