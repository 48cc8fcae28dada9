import MyFsck.BlockMarks

/-! The marking of one file by `get_file_block_bitmap`: what the three functions mark is what the
block map of ext2 needs. -/
namespace MyFsck

open ByteBuffer ErrorState

section Full

variable (g : Globals) (img : Buf) (inode : Inode)

/-- What the pointers of a file within its size name: the blocks it maps, and 0 for the holes. -/
def Globals.Names (b : ℕ) : Prop :=
  (∃ k < g.sizeInBlocks inode, g.blockOf img inode k = b) ∨
    (12 < g.sizeInBlocks inode ∧ inode.iBlock.getD 12 0 = b) ∨
    (268 < g.sizeInBlocks inode ∧ inode.iBlock.getD 13 0 = b) ∨
    ∃ j, 268+256*j < g.sizeInBlocks inode ∧ g.indirect img (inode.iBlock.getD 13 0) j = b

/-- The file has no hole of a whole pointer block; a file past the limit of the program is left out. -/
structure PointersThere : Prop where
  single : 12 < g.sizeInBlocks inode → g.sizeInBlocks inode ≤ 65549 → inode.iBlock.getD 12 0 ≠ 0
  double : 268 < g.sizeInBlocks inode → g.sizeInBlocks inode ≤ 65549 → inode.iBlock.getD 13 0 ≠ 0
  second : ∀ j, 268+256*j < g.sizeInBlocks inode → g.sizeInBlocks inode ≤ 65549 →
    g.indirect img (inode.iBlock.getD 13 0) j ≠ 0

/-- A file without holes: its data blocks, and the pointer blocks needed for them, are there and in
the file system. With more than 268 blocks its single-indirect block is full. -/
structure FileFull : Prop where
  data : ∀ k < g.sizeInBlocks inode,
    g.blockOf img inode k ≠ 0 ∧ g.blockOf img inode k < g.superBlock.sBlocksCount
  single : 12 < g.sizeInBlocks inode →
    inode.iBlock.getD 12 0 ≠ 0 ∧ inode.iBlock.getD 12 0 < g.superBlock.sBlocksCount
  double : 268 < g.sizeInBlocks inode →
    inode.iBlock.getD 13 0 ≠ 0 ∧ inode.iBlock.getD 13 0 < g.superBlock.sBlocksCount
  second : ∀ j, 268+256*j < g.sizeInBlocks inode →
    g.indirect img (inode.iBlock.getD 13 0) j ≠ 0 ∧
      g.indirect img (inode.iBlock.getD 13 0) j < g.superBlock.sBlocksCount

end Full

section Exact

variable {g : Globals} {img : Buf} {inode : Inode}

theorem maps_iff {b : ℕ} : g.Maps img inode b ↔ b ≠ 0 ∧ g.Names img inode b := Iff.rfl

theorem indirect_eq {p : ℕ} (hp : p ≠ 0) (i : ℕ) :
    g.indirect img p i = pointerAt (g.blockAt img p) i := if_neg hp

theorem exists_of_mem_take {l : List ℕ} {n b : ℕ} (h : b ∈ l.take n) : ∃ k < n, l.getD k 0 = b := by
  obtain ⟨k,hk,rfl⟩ := List.mem_take_iff_getElem.mp h
  exact ⟨k,by omega,List.getD_eq_getElem _ _ (by omega)⟩

theorem of_mem_secondMarks {p : Buf} {turns q r b : ℕ} (hr : 0 < r)
    (h : b ∈ secondMarks g img p turns q r) :
    ∃ j, 256*j < r ∧ (pointerAt p (q+j) = b ∨
      ∃ i < 256, 256*j+i < r ∧ pointerAt (g.blockAt img (pointerAt p (q+j))) i = b) := by
  induction turns generalizing q r with
  | zero => simp [secondMarks] at h
  | succ turns ih =>
    rw [secondMarks,List.mem_cons,List.mem_append] at h
    rcases h with h | h | h
    · exact ⟨0,by omega,Or.inl h.symm⟩
    · obtain ⟨i,hi,h⟩ := mem_pointersFrom.mp h
      rw [Nat.zero_add] at h
      exact ⟨0,by omega,Or.inr ⟨i,by omega,by omega,h⟩⟩
    · split at h
      · simp at h
      · obtain ⟨j,hj,h⟩ := ih (by omega) h
        rw [show q+1+j = q+(j+1) by ring] at h
        refine ⟨j+1,by omega,h.imp_right ?_⟩
        rintro ⟨i,hi,hir,h⟩
        exact ⟨i,hi,by omega,h⟩

theorem names_direct {n b : ℕ} (hn : n ≤ 12) (hle : n ≤ g.sizeInBlocks inode)
    (h : b ∈ inode.iBlock.take n) : g.Names img inode b := by
  obtain ⟨k,hk,rfl⟩ := exists_of_mem_take h
  refine Or.inl ⟨k,by omega,?_⟩
  rw [Globals.blockOf,if_pos (by omega)]

theorem names_single (hind : inode.iBlock.getD 12 0 ≠ 0) {m b : ℕ} (hm : m ≤ 256)
    (hlt : 12 < g.sizeInBlocks inode) (hle : 12+m ≤ g.sizeInBlocks inode)
    (h : b ∈ inode.iBlock.getD 12 0 ::
      pointersFrom (g.blockAt img (inode.iBlock.getD 12 0)) 0 m) : g.Names img inode b := by
  rcases List.mem_cons.mp h with rfl | h
  · exact Or.inr (Or.inl ⟨hlt,rfl⟩)
  · obtain ⟨j,hj,rfl⟩ := mem_pointersFrom.mp h
    refine Or.inl ⟨12+j,by omega,?_⟩
    rw [Globals.blockOf,if_neg (by omega),if_pos (by omega),indirect_eq hind,
      Nat.add_sub_cancel_left,Nat.zero_add]

theorem names_double (hdind : inode.iBlock.getD 13 0 ≠ 0)
    (hsecond : ∀ j, 268+256*j < g.sizeInBlocks inode →
      g.indirect img (inode.iBlock.getD 13 0) j ≠ 0) {b : ℕ} (hlt : 268 < g.sizeInBlocks inode)
    (h : b ∈ inode.iBlock.getD 13 0 :: secondMarks g img
      (g.blockAt img (inode.iBlock.getD 13 0)) 256 0 (g.sizeInBlocks inode-268)) :
    g.Names img inode b := by
  rcases List.mem_cons.mp h with rfl | h
  · exact Or.inr (Or.inr (Or.inl ⟨hlt,rfl⟩))
  · obtain ⟨j,hj,h⟩ := of_mem_secondMarks (by omega) h
    rw [Nat.zero_add,← indirect_eq hdind] at h
    rcases h with rfl | ⟨i,hi,hir,rfl⟩
    · exact Or.inr (Or.inr (Or.inr ⟨j,by omega,rfl⟩))
    · refine Or.inl ⟨268+(256*j+i),by omega,?_⟩
      rw [Globals.blockOf,if_neg (by omega),if_neg (by omega),Nat.add_sub_cancel_left,
        show (256*j+i)/256 = j by omega,show (256*j+i)%256 = i by omega,
        indirect_eq (hsecond j (by omega))]

theorem PointersThere.names (hp : PointersThere g img inode) (hbs : g.blockSize = 1024)
    (hn : g.sizeInBlocks inode ≤ 65804) {b : ℕ} (h : b ∈ fileMarks g img inode) :
    g.Names img inode b := by
  have hnum := fileBlockNum_eq hbs hn
  simp only [fileMarks,hnum,ext2NdirBlocks,indirectMaxBlock,doubleIndirectMaxBlock,ext2IndBlock,
    ext2DindBlock] at h
  by_cases h₁ : g.sizeInBlocks inode ≤ 12
  · rw [if_pos h₁] at h
    exact names_direct h₁ le_rfl h
  rw [if_neg h₁] at h
  by_cases h₂ : g.sizeInBlocks inode ≤ 268
  · have hind := hp.single (by omega) (by omega)
    rw [if_pos h₂,List.mem_append] at h
    rcases h with h | h
    · exact names_direct le_rfl (by omega) h
    · exact names_single hind (by omega) (by omega) (by omega) h
  rw [if_neg h₂] at h
  by_cases h₃ : g.sizeInBlocks inode ≤ 65549
  · have hind := hp.single (by omega) h₃
    have hdind := hp.double (by omega) h₃
    rw [if_pos h₃,List.mem_append,← List.cons_append,List.mem_append] at h
    rcases h with h | h | h
    · exact names_direct le_rfl (by omega) h
    · exact names_single hind le_rfl (by omega) (by omega) h
    · exact names_double hdind (fun j hj => hp.second j hj h₃) (by omega) h
  · rw [if_neg h₃] at h
    cases h

namespace FileFull

variable (hfull : FileFull g img inode)
include hfull

theorem pointersThere : PointersThere g img inode :=
  ⟨fun h _ => (hfull.single h).1,fun h _ => (hfull.double h).1,fun j h _ => (hfull.second j h).1⟩

theorem names_pos {b : ℕ} (h : g.Names img inode b) : b ≠ 0 ∧ b < g.superBlock.sBlocksCount := by
  rcases h with ⟨k,hk,rfl⟩ | ⟨hlt,rfl⟩ | ⟨hlt,rfl⟩ | ⟨j,hlt,rfl⟩
  · exact hfull.data k hk
  · exact hfull.single hlt
  · exact hfull.double hlt
  · exact hfull.second j hlt

theorem mem_fileMarks_iff (hbs : g.blockSize = 1024) (hn : g.sizeInBlocks inode ≤ 65549) {b : ℕ} :
    b ∈ fileMarks g img inode ↔ g.Maps img inode b := by
  refine ⟨fun h => ?_,mem_fileMarks hbs hn⟩
  have hnames := hfull.pointersThere.names hbs (by omega) h
  exact maps_iff.mpr ⟨(hfull.names_pos hnames).1,hnames⟩

end FileFull

end Exact

/-- The same partition without inodes. -/
def Globals.withoutInodes (g : Globals) : Globals :=
  { g with
    superBlock := { g.superBlock with sInodesCount := 0, sInodesPerGroup := 1 }
    groupDescBlock := Buf.zero g.blockSize }

@[simp] theorem withoutInodes_inodeGroups (g : Globals) : g.withoutInodes.inodeGroups = 0 :=
  (by norm_num : (0+1-1)/1 = 0)

theorem withoutInodes_geometry {g : Globals} (hbs : g.blockSize = 1024)
    (hs : 2*g.superBlock.sBlocksCount < 2^32) : Geometry g.withoutInodes where
  block_pos := by rw [show g.withoutInodes.blockSize = 1024 from hbs]; norm_num
  sector_dvd := by rw [show g.withoutInodes.blockSize = 1024 from hbs]; decide
  sectors_lt := by
    rw [show g.withoutInodes.blockSize = 1024 from hbs]
    exact (Nat.mul_comm _ _).trans_lt hs
  group_pos := Nat.one_pos
  table_le := by
    rw [show g.withoutInodes.blockSize = 1024 from hbs]
    exact (by decide : 1*inodeSize+1024 ≤ 2^32)
  inodes_le := (by norm_num : 0+1 ≤ 2^32)
  desc_size := rfl
  desc_le := by simp
  desc_lt := by simp
  table_in a ha := absurd ha (by simp)
  tables_disjoint a ha := absurd ha (by simp)

theorem markSecondLevel_withoutInodes (g : Globals) (p : Buf) (n turns i k : ℕ) (bm : Buf) :
    markSecondLevel g.withoutInodes p n turns i k bm = markSecondLevel g p n turns i k bm := by
  induction turns generalizing i k bm with
  | zero => rfl
  | succ turns ih =>
    simp only [markSecondLevel,ih]
    rfl

theorem getFileBlockBitmap_withoutInodes (g : Globals) (bm : Buf) (inode : Inode) :
    getFileBlockBitmap g.withoutInodes bm inode = getFileBlockBitmap g bm inode := by
  unfold getFileBlockBitmap getFileDoubleIndirectBlockBitmap
  simp only [markSecondLevel_withoutInodes]
  rfl

/-- For every array, the file's own blocks are set to 1 and the rest is left as it was. -/
theorem getFileBlockBitmap_exact {g : Globals} (hbs : g.blockSize = 1024)
    (hs : 2*g.superBlock.sBlocksCount < 2^32) {d : Device} (hf : g.Fits d.image) {inode : Inode}
    (hn : g.sizeInBlocks inode ≤ 65549) (hfull : FileFull g d.image inode) {bm : Buf}
    (hbm : bm.size = g.superBlock.sBlocksCount+1) :
    ∃ bm' d', (getFileBlockBitmap g bm inode).run d = .ok bm' d' ∧ d'.image = d.image ∧
      bm'.size = bm.size ∧ ∀ b < bm.size,
        (g.Maps d.image inode b → bm'.byte b = 1) ∧
        (¬ g.Maps d.image inode b → bm'.byte b = bm.byte b) := by
  have hfull' : FileFull g.withoutInodes d.image inode :=
    ⟨hfull.data,hfull.single,hfull.double,hfull.second⟩
  have hmem : ∀ b, b ∈ fileMarks g.withoutInodes d.image inode ↔ g.Maps d.image inode b := fun b =>
    hfull'.mem_fileMarks_iff hbs hn
  rcases @getFileBlockBitmap_run g.withoutInodes d bm (withoutInodes_geometry hbs hs) hbs hf inode hbm
    with ⟨d',hrun,him⟩ | ⟨hno,_⟩
  · rw [getFileBlockBitmap_withoutInodes] at hrun
    refine ⟨_,d',hrun,him,addMarks_size _ _,fun b hb => ?_⟩
    rw [addMarks_byte _ hb]
    exact ⟨fun h => if_pos ((hmem b).mpr h),fun h => if_neg (mt (hmem b).mp h)⟩
  · exact absurd (fun b hb => (hfull.names_pos ((hmem b).mp hb).2).2) hno

/-- Block `b`, full of pointers to `first` and the blocks behind it. -/
def pointerPiece (b first : ℕ) : ℕ × ℕ × (ℕ → ℕ) :=
  (512+1024*b,1024,fun i => (first+i/4)/256^(i%4)%256)

/-- A file of 270 blocks: 8 to 19, the indirect block 20 with 23 to 278, the double-indirect block 21,
and the second-level block 22 with 279 and 280. -/
def doubleImage : Buf := exampleImage 540 [pointerPiece 20 23,pointerPiece 21 22,pointerPiece 22 279]

def doubleFile : Inode :=
  ⟨0x81A4,0,270*1024,0,0,0,0,0,1,0,0,List.range' 8 14 ++ [0]⟩

theorem double_size : (exampleGlobals 540).sizeInBlocks doubleFile = 270 := by decide

theorem double_full : FileFull (exampleGlobals 540) doubleImage doubleFile where
  data := by
    rw [double_size]
    decide +kernel
  single _ := by decide
  double _ := by decide
  second j hj := by
    rw [double_size] at hj
    obtain rfl : j = 0 := by omega
    decide +kernel

theorem getFileBlockBitmap_exact_double :
    ∃ bm' d', (getFileBlockBitmap (exampleGlobals 540) (Buf.zero 541) doubleFile).run
        ⟨doubleImage,[]⟩ = .ok bm' d' ∧ d'.image = doubleImage ∧ bm'.size = 541 ∧ ∀ b < 541,
      ((exampleGlobals 540).Maps doubleImage doubleFile b → bm'.byte b = 1) ∧
      (¬ (exampleGlobals 540).Maps doubleImage doubleFile b → bm'.byte b = (Buf.zero 541).byte b) :=
  getFileBlockBitmap_exact (d := ⟨doubleImage,[]⟩) rfl (by decide) (by decide +kernel)
    (by rw [double_size]; norm_num) double_full rfl

end MyFsck
