import MyFsck.FileMarks
import MyFsck.PassOrder

/-! The boot block is no block of the file system, but a pointer that is 0 leads to it. What `pass4`
gets from two images that differ only there. -/
namespace MyFsck

open ByteBuffer ErrorState Unfolding Buf

section Agree

variable {g : Globals} {img img' : Buf} (hg : Geometry g) (h : AgreeOff (g.InArea 0) img img')
include hg h

theorem blockAt_boot {b : ℕ} (hb : b ≠ 0) : g.blockAt img' b = g.blockAt img b := by
  refine Buf.ext_byte rfl fun k hk => ?_
  rw [blockAt_size] at hk
  rw [Globals.blockAt,Globals.blockAt,slice_byte _ hk,slice_byte _ hk]
  refine (h.byte_eq _ fun hin => ?_).symm
  have harea : g.areaOffset 0 = g.blockOffset 0 := hg.sizes.areaOffset_eq (Nat.zero_le _)
  rw [Globals.InArea,harea,hg.sizes.sector_mul] at hin
  have hdisj := hg.sizes.blocks_disjoint hb
  omega

theorem inodeAt_boot {x : ℕ} (h1 : 1 ≤ x) (hle : x ≤ g.superBlock.sInodesCount) :
    g.inodeAt img' x = g.inodeAt img x := by
  have htable := (hg.table_in _ (hg.inodeGroup_lt h1 hle)).1
  rw [Globals.inodeAt,Globals.inodeAt,blockAt_boot hg h (b := g.inodeBlock x)
    (by unfold Globals.inodeBlock; omega)]

theorem indirect_boot (p i : ℕ) : g.indirect img' p i = g.indirect img p i := by
  by_cases hp : p = 0
  · rw [Globals.indirect,Globals.indirect,if_pos hp,if_pos hp]
  · rw [indirect_eq hp,indirect_eq hp,blockAt_boot hg h hp]

theorem names_boot (inode : Inode) : g.Names img' inode = g.Names img inode := by
  funext b
  simp only [Globals.Names,Globals.blockOf,indirect_boot hg h]

theorem maps_boot {inode : Inode} {b : ℕ} : g.Maps img' inode b ↔ g.Maps img inode b := by
  rw [maps_iff,maps_iff,names_boot hg h]

theorem pointersThere_boot {inode : Inode} (hp : PointersThere g img inode) :
    PointersThere g img' inode :=
  ⟨hp.single,hp.double,fun j hj hn => by
    rw [indirect_boot hg h]
    exact hp.second j hj hn⟩

theorem dirEntries_boot {x : ℕ} (h1 : 1 ≤ x) (hle : x ≤ g.superBlock.sInodesCount) :
    g.dirBlocks img' x = g.dirBlocks img x ∧ g.dirEntries img' x = g.dirEntries img x :=
  dirEntries_congr (by rw [inodeAt_boot hg h h1 hle]) fun _ hb =>
    blockAt_boot hg h (dirBlocks_ne_zero hb)

theorem walkKids_boot {x : ℕ} (hx : WalkOk g img x) : g.walkKids img' x = g.walkKids img x := by
  rw [Globals.walkKids,Globals.walkKids,inodeAt_boot hg h hx.num_pos hx.num_le,Globals.nonDot,
    Globals.nonDot,(dirEntries_boot hg h hx.num_pos hx.num_le).2]

theorem walkOk_boot {x : ℕ} (hx : WalkOk g img x) : WalkOk g img' x where
  num_pos := hx.num_pos
  num_le := hx.num_le
  dir hlnk hreg := by
    rw [inodeAt_boot hg h hx.num_pos hx.num_le] at hlnk hreg
    have hdir := hx.dir hlnk hreg
    obtain ⟨hblocks,hentries⟩ := dirEntries_boot hg h hx.num_pos hx.num_le
    refine ⟨hx.num_pos,hx.num_le,?_,?_,?_⟩
    · rw [hblocks]
      exact hdir.blocks_lt
    · rw [hblocks]
      intro b hb
      rw [blockAt_boot hg h (dirBlocks_ne_zero hb)]
      exact hdir.wellFormed b hb
    · rw [Globals.named,hentries]
      exact hdir.named_le

theorem BlocksOk.unfolds_boot (hok : BlocksOk g img) {xs : List ℕ}
    (hu : Unfolds (g.walkKids img) [rootInodeNum] xs) :
    Unfolds (g.walkKids img') [rootInodeNum] xs :=
  hu.congr fun y hy => walkKids_boot hg h (hok.walk y (hu.mem_iff.mp hy))

theorem BlocksOk.inUse_boot (hok : BlocksOk g img) {x : ℕ} :
    g.InUse img' x ↔ g.InUse img x := by
  obtain ⟨xs,hu⟩ := hok.unfolds
  rw [Globals.InUse,Globals.InUse,← hu.mem_iff,← (hok.unfolds_boot hg h hu).mem_iff]
  refine and_congr_right fun hx => ?_
  have hwalk := hok.walk x (hu.mem_iff.mp hx)
  rw [inodeAt_boot hg h hwalk.num_pos hwalk.num_le]

theorem BlocksOk.inodeAt_boot (hok : BlocksOk g img) {x : ℕ} (hx : g.InUse img x) :
    g.inodeAt img' x = g.inodeAt img x :=
  MyFsck.inodeAt_boot hg h (hok.walk x hx.1).num_pos (hok.walk x hx.1).num_le

theorem BlocksOk.boot (hok : BlocksOk g img) : BlocksOk g img' where
  acyclic := by
    obtain ⟨xs,hu⟩ := hok.unfolds
    exact (hok.unfolds_boot hg h hu).acyclic
  walk x hx := by
    obtain ⟨xs,hu⟩ := hok.unfolds
    rw [← (hok.unfolds_boot hg h hu).mem_iff,hu.mem_iff] at hx
    exact walkOk_boot hg h (hok.walk x hx)
  size_le x hx := by
    have hx' := (hok.inUse_boot hg h).mp hx
    rw [hok.inodeAt_boot hg h hx']
    exact hok.size_le x hx'
  dir_full x hx hdir := by
    have hx' := (hok.inUse_boot hg h).mp hx
    rw [hok.inodeAt_boot hg h hx'] at hdir ⊢
    exact hok.dir_full x hx' hdir
  data x hx b hb := by
    have hx' := (hok.inUse_boot hg h).mp hx
    rw [hok.inodeAt_boot hg h hx',maps_boot hg h] at hb
    exact hok.data x hx' b hb

theorem pointersFrom_boot {p : ℕ} (hp : p ≠ 0) (q m : ℕ) :
    pointersFrom (g.blockAt img' p) q m = pointersFrom (g.blockAt img p) q m := by
  rw [blockAt_boot hg h hp]

theorem secondMarks_boot {p : Buf} {turns q r : ℕ} (hr : 0 < r)
    (hp : ∀ j, 256*j < r → j < turns → pointerAt p (q+j) ≠ 0) :
    secondMarks g img' p turns q r = secondMarks g img p turns q r := by
  induction turns generalizing q r with
  | zero => rfl
  | succ turns ih =>
    have h₀ := hp 0 (by omega) (by omega)
    rw [Nat.add_zero] at h₀
    rw [secondMarks,secondMarks,pointersFrom_boot hg h h₀]
    by_cases hend : r ≤ 256
    · rw [if_pos hend,if_pos hend]
    · rw [if_neg hend,if_neg hend,ih (by omega) fun j hj hlt => ?_]
      rw [show q+1+j = q+(j+1) by ring]
      exact hp (j+1) (by omega) (by omega)

theorem fileMarks_boot (hbs : g.blockSize = 1024) {inode : Inode}
    (hn : g.sizeInBlocks inode ≤ 65804) (hp : PointersThere g img inode) :
    fileMarks g img' inode = fileMarks g img inode := by
  have hnum := fileBlockNum_eq hbs hn
  simp only [fileMarks,hnum,ext2NdirBlocks,indirectMaxBlock,doubleIndirectMaxBlock,ext2IndBlock,
    ext2DindBlock]
  by_cases h₁ : g.sizeInBlocks inode ≤ 12
  · rw [if_pos h₁,if_pos h₁]
  rw [if_neg h₁,if_neg h₁]
  by_cases h₂ : g.sizeInBlocks inode ≤ 268
  · rw [if_pos h₂,if_pos h₂,pointersFrom_boot hg h (hp.single (by omega) (by omega))]
  rw [if_neg h₂,if_neg h₂]
  by_cases h₃ : g.sizeInBlocks inode ≤ 65549
  · have hdind := hp.double (by omega) h₃
    rw [if_pos h₃,if_pos h₃,pointersFrom_boot hg h (hp.single (by omega) h₃),blockAt_boot hg h hdind,
      secondMarks_boot hg h (by omega) fun j hj _ => ?_]
    have hsecond := hp.second j (by omega) h₃
    rwa [indirect_eq hdind,← Nat.zero_add j] at hsecond
  · rw [if_neg h₃,if_neg h₃]

end Agree

/-- No regular file in use, up to the limit of the program, has a hole of a whole pointer block. -/
def NoPointerHole (g : Globals) (img : Buf) : Prop := ∀ x, g.InUse img x →
  inodeIsReg (g.inodeAt img x) = true → PointersThere g img (g.inodeAt img x)

section Holes

variable {g : Globals} {img img' : Buf}

theorem BlocksOk.noPointerHole_boot (hok : BlocksOk g img) (hg : Geometry g)
    (h : AgreeOff (g.InArea 0) img img') (hno : NoPointerHole g img) : NoPointerHole g img' := by
  intro x hx hreg
  have hx' := (hok.inUse_boot hg h).mp hx
  rw [hok.inodeAt_boot hg h hx'] at hreg ⊢
  exact pointersThere_boot hg h (hno x hx' hreg)

theorem BlocksOk.fileMarks_names (hok : BlocksOk g img) (hbs : g.blockSize = 1024)
    (hno : NoPointerHole g img) {x : ℕ} (hx : g.InUse img x)
    (hreg : inodeIsReg (g.inodeAt img x) = true) {b : ℕ}
    (hb : b ∈ fileMarks g img (g.inodeAt img x)) : b = 0 ∨ g.Maps img (g.inodeAt img x) b := by
  have hnames := (hno x hx hreg).names hbs (hok.size_le x hx) hb
  by_cases h0 : b = 0
  · exact Or.inl h0
  · exact Or.inr (maps_iff.mpr ⟨h0,hnames⟩)

theorem BlocksOk.fileOk (hok : BlocksOk g img) (hl : GroupLayout g) (hno : NoPointerHole g img)
    {x : ℕ} (hx : g.InUse img x) (hreg : inodeIsReg (g.inodeAt img x) = true) :
    FileOk g img (g.inodeAt img x) := by
  intro b hb
  rcases hok.fileMarks_names hl.block_size hno hx hreg hb with rfl | hmaps
  · have hlast := hl.last_group
    omega
  · exact (hok.data x hx b hmaps).2.1

theorem BlocksOk.walk_run (hok : BlocksOk g img) (hl : GroupLayout g) (hf : g.Fits img)
    (hno : NoPointerHole g img) {ys : List ℕ}
    (hu : Unfolds (g.walkKids img) [rootInodeNum] ys) {fuel : ℕ} (hfuel : ys.length ≤ fuel)
    {d : Device} (hd : d.image = img) : ∃ d',
    (getTrueBlockBitmap g fuel (calloc (g.superBlock.sBlocksCount+1)) rootInodeNum).run d =
      .ok (addMarks (calloc (g.superBlock.sBlocksCount+1)) (ys.flatMap (g.ownMarks img))) d' ∧
      d'.image = img := by
  have hsize : (calloc (g.superBlock.sBlocksCount+1)).size = g.superBlock.sBlocksCount+1 := by
    have hcount := hl.count_lt
    rw [calloc,u32_eq (by omega)]
    rfl
  refine (getTrueBlockBitmap_adds hl.geometry hl.block_size hf hu False (fun y hy => ?_) fuel hfuel
    _ d hsize hd).resolve_right fun h => h.1
  have hy' := hu.mem_iff.mp hy
  exact ⟨hok.walk y hy',fun hreg => Or.inl (hok.fileOk hl hno ⟨hy',Or.inl hreg⟩ hreg)⟩

theorem BlocksOk.ownMarks_boot (hok : BlocksOk g img) (hl : GroupLayout g)
    (h : AgreeOff (g.InArea 0) img img') (hno : NoPointerHole g img) {x : ℕ}
    (hx : Reach (g.walkKids img) rootInodeNum x) : g.ownMarks img' x = g.ownMarks img x := by
  have hwalk := hok.walk x hx
  rw [Globals.ownMarks,Globals.ownMarks,MyFsck.inodeAt_boot hl.geometry h hwalk.num_pos hwalk.num_le,
    (dirEntries_boot hl.geometry h hwalk.num_pos hwalk.num_le).1]
  by_cases hreg : inodeIsReg (g.inodeAt img x) = true
  · have hx' : g.InUse img x := ⟨hx,Or.inl hreg⟩
    rw [fileMarks_boot hl.geometry h hl.block_size (hok.size_le x hx') (hno x hx' hreg)]
  · rw [if_neg hreg,if_neg hreg]

theorem GroupLayout.bitmapBlock_eq (hl : GroupLayout g) {b : ℕ} (hb : g.BitmapBlock b) :
    ∃ a < g.blockGroups, b = g.blockBitmap a := by
  obtain ⟨a,ha,gd,hgd,i,hi,rfl⟩ := hb
  rw [hl.getBlockGroupNum_eq] at ha
  rw [hl.getGroupBlockBitmapBlockNum_eq] at hi
  obtain ⟨gd',hrun,hstart,-,-⟩ := hl.groupDesc_run ⟨Buf.zero 0,[]⟩ ha
  have hsome := inBounds_ok hrun
  rw [← show g.groupDesc a = decodeGroupDesc g.groupDescBlock (u32 (a*groupDescSize)) from rfl,hgd]
    at hsome
  cases hsome
  have hlt := (hl.bitmap_lt ha).2
  have hcount := hl.count_lt
  rw [hl.block_bitmap a ha] at hlt
  obtain rfl : i = 0 := by omega
  refine ⟨a,ha,?_⟩
  rw [hl.block_bitmap a ha,Nat.add_zero,hstart,u32_eq (by omega)]

theorem GroupLayout.bitmap_boot (hl : GroupLayout g) {b : ℕ} (hb : g.BitmapBlock b) (k : ℕ)
    (hk : g.InArea b k) : ¬ g.InArea 0 k := by
  intro h0
  obtain ⟨a,ha,rfl⟩ := hl.bitmapBlock_eq hb
  obtain ⟨h1,hlt⟩ := hl.bitmap_lt ha
  have hg := hl.geometry
  have harea : ∀ c ≤ g.superBlock.sBlocksCount, g.areaOffset c = g.blockOffset c :=
    fun c hc => hg.sizes.areaOffset_eq hc
  rw [Globals.InArea,harea _ (by omega),hg.sizes.sector_mul] at hk h0
  have hdisj := hg.sizes.blocks_disjoint (show g.blockBitmap a ≠ 0 by omega)
  omega

/-- Whatever stands in the boot block, `pass4` writes the same block bitmaps, and for a regular file
in use it marks blocks the file maps and position 0 only. -/
def BootSealed (g : Globals) (img : Buf) : Prop :=
  ∃ n, ∀ fuel, n ≤ fuel → ∀ img', AgreeOff (g.InArea 0) img img' →
    (∃ d d', (pass4 g fuel).run ⟨img,[]⟩ = .ok () d ∧ (pass4 g fuel).run ⟨img',[]⟩ = .ok () d' ∧
      ∀ b, g.BitmapBlock b → g.blockAt d'.image b = g.blockAt d.image b) ∧
    ∀ x, g.InUse img x → inodeIsReg (g.inodeAt img x) = true →
      ∀ bm : Buf, bm.size = g.superBlock.sBlocksCount+1 →
      ∃ bm' d', (getFileBlockBitmap g bm (g.inodeAt img x)).run ⟨img',[]⟩ = .ok bm' d' ∧
        ∀ b < bm.size, bm'.byte b ≠ bm.byte b → b = 0 ∨ g.Maps img (g.inodeAt img x) b

theorem fits_agree {P : ℕ → Prop} (h : AgreeOff P img img') (hf : g.Fits img) : g.Fits img' := by
  unfold Globals.Fits at *
  rw [← h.size_eq]
  exact hf

theorem BlocksOk.pass4_boot (hok : BlocksOk g img) (hl : GroupLayout g) (hf : g.Fits img)
    (hno : NoPointerHole g img) {ys : List ℕ} (hu : Unfolds (g.walkKids img) [rootInodeNum] ys)
    {fuel : ℕ} (hfuel : ys.length ≤ fuel) (h : AgreeOff (g.InArea 0) img img') :
    ∃ d d', (pass4 g fuel).run ⟨img,[]⟩ = .ok () d ∧ (pass4 g fuel).run ⟨img',[]⟩ = .ok () d' ∧
      ∀ b, g.BitmapBlock b → g.blockAt d'.image b = g.blockAt d.image b := by
  have hg := hl.geometry
  obtain ⟨d₁,hrun₁,-⟩ := hok.walk_run hl hf hno hu hfuel (d := ⟨img,[]⟩) rfl
  obtain ⟨d,_,hpass,-⟩ := pass4_run hl (d := ⟨img,[]⟩) hf hrun₁
  have hmarks : ys.flatMap (g.ownMarks img') = ys.flatMap (g.ownMarks img) := by
    rw [List.flatMap_def,List.flatMap_def]
    exact congrArg _ (List.map_congr_left fun y hy => hok.ownMarks_boot hl h hno (hu.mem_iff.mp hy))
  have hwalk : Alike (Images img img') Eq
      (getTrueBlockBitmap g fuel (calloc (g.superBlock.sBlocksCount+1)) rootInodeNum)
      (getTrueBlockBitmap g fuel (calloc (g.superBlock.sBlocksCount+1)) rootInodeNum) := by
    rintro e e' ⟨he,he'⟩
    obtain ⟨t,hrun,him⟩ := hok.walk_run hl hf hno hu hfuel he
    obtain ⟨t',hrun',him'⟩ := (hok.boot hg h).walk_run hl (fits_agree h hf)
      (hok.noPointerHole_boot hg h hno) (hok.unfolds_boot hg h hu) hfuel he'
    rw [hmarks] at hrun'
    exact Or.inl ⟨_,_,t,t',hrun,hrun',rfl,him,him'⟩
  obtain ⟨d',hpass',hdiffer⟩ := @pass4_differ_of_walk g _ ⟨img,[]⟩ ⟨img',[]⟩ _ _ _ h
    (fun b hb => hl.bitmap_boot hb) hwalk hpass
  refine ⟨d,d',hpass,hpass',fun b hb => ?_⟩
  obtain ⟨a,ha,rfl⟩ := hl.bitmapBlock_eq hb
  have hpos := (hl.bitmap_lt ha).1
  exact blockAt_boot hg hdiffer (by omega)

theorem mem_fileMarks_hole (hbs : g.blockSize = 1024) {inode : Inode}
    (hn : g.sizeInBlocks inode ≤ 65804) (hhole : ¬ PointersThere g img inode) :
    pointerAt (g.blockAt img 0) 0 ∈ fileMarks g img inode := by
  have hnum := fileBlockNum_eq hbs hn
  simp only [fileMarks,hnum,ext2NdirBlocks,indirectMaxBlock,doubleIndirectMaxBlock,ext2IndBlock,
    ext2DindBlock]
  have hfirst : ∀ m, 0 < m →
      pointerAt (g.blockAt img 0) 0 ∈ pointersFrom (g.blockAt img 0) 0 m := fun m hm =>
    mem_pointersFrom.mpr ⟨0,hm,rfl⟩
  by_contra hno
  by_cases h₃ : g.sizeInBlocks inode ≤ 65549
  swap
  · exact hhole ⟨fun _ h => absurd h h₃,fun _ h => absurd h h₃,fun _ _ h => absurd h h₃⟩
  by_cases hind : 12 < g.sizeInBlocks inode ∧ inode.iBlock.getD 12 0 = 0
  · refine hno ?_
    have hmem := hfirst (g.sizeInBlocks inode-12) (by omega)
    have hmem' := hfirst 256 (by norm_num)
    rw [hind.2,if_neg (by omega)]
    split
    · simp [hmem]
    · simp [hmem']
  by_cases hdind : 268 < g.sizeInBlocks inode ∧ inode.iBlock.getD 13 0 = 0
  · refine hno ?_
    rw [hdind.2,if_neg (by omega),if_neg (by omega),if_pos h₃,secondMarks]
    simp
  refine hhole ⟨fun h _ h0 => hind ⟨h,h0⟩,fun h _ h0 => hdind ⟨h,h0⟩,fun j hj _ h0 => hno ?_⟩
  have hd0 : inode.iBlock.getD 13 0 ≠ 0 := fun h0 => hdind ⟨by omega,h0⟩
  rw [indirect_eq hd0] at h0
  have hmem := (@mem_secondMarks g img (g.blockAt img (inode.iBlock.getD 13 0)) 256 0
    (g.sizeInBlocks inode-268) j (by omega) (by omega)).2 0 (by norm_num) (by omega)
  rw [Nat.zero_add,h0] at hmem
  rw [if_neg (by omega),if_neg (by omega),if_pos h₃]
  exact List.mem_append_right _ (List.mem_cons_of_mem _ (List.mem_append_right _
    (List.mem_cons_of_mem _ hmem)))

/-- A block whose first pointer is 1. -/
def firstPointer : Buf := (Buf.zero 1024).set 0 1

theorem setBlock_boot (hl : GroupLayout g) (hf : g.Fits img) (src : Buf) (hs : src.size = 1024) :
    AgreeOff (g.InArea 0) img (g.setBlock img 0 src) := by
  have hg := hl.geometry
  have harea : g.areaOffset 0 = g.blockOffset 0 := hg.sizes.areaOffset_eq (Nat.zero_le _)
  have hlast := hl.last_group
  have hin := hg.sizes.offset_in hf (show 0 < g.superBlock.sBlocksCount by omega)
  rw [hl.block_size] at hin
  refine AgreeOff.patch_self (hs ▸ hin) fun j hj hno => absurd ?_ hno
  rw [Globals.InArea,harea,hg.sizes.sector_mul,hl.block_size]
  omega

end Holes

/-- A file of 13 blocks all of which are holes but the first: its pointer 12 is 0. -/
def sparseImage : Buf := exampleImage 16 [
  inodePiece 2 (inodeBytes 0x41ED 1024 2 [7]),
  inodePiece 11 (inodeBytes 0x81A4 (13*1024) 1 [8]),
  blockPiece 7 0 (dirBytes 2 2 (entryBytes 11 1000 1 [97]))]

/-- The same with a boot block that begins with the bytes of the number 14. -/
def bootedImage : Buf := (exampleGlobals 16).setBlock sparseImage 0 ((Buf.zero 1024).set 0 14)

theorem sparse_fits : (exampleGlobals 16).Fits sparseImage := by decide +kernel

theorem sparse_unfolds :
    Unfolds ((exampleGlobals 16).walkKids sparseImage) [rootInodeNum] [2,11] :=
  unfolds_of_unfoldFrom (n := 2) (by decide +kernel)

theorem sparse_inUse {x : ℕ} (h : Reach ((exampleGlobals 16).walkKids sparseImage) rootInodeNum x) :
    x = 2 ∨ x = 11 := by simpa using sparse_unfolds.mem_iff.mpr h

theorem sparse_blocksOk : BlocksOk (exampleGlobals 16) sparseImage where
  acyclic := sparse_unfolds.acyclic
  walk x hx := by
    rcases sparse_inUse hx with rfl | rfl
    · exact ⟨by decide,by decide,fun _ _ => (liveDir_of_check (by decide +kernel)).ok⟩
    · have hreg : inodeIsReg ((exampleGlobals 16).inodeAt sparseImage 11) = true := by decide +kernel
      exact ⟨by decide,by decide,fun _ h => absurd (hreg.symm.trans h) (by decide)⟩
  size_le x hx := by
    rcases sparse_inUse hx.1 with rfl | rfl <;> decide +kernel
  dir_full x hx hdir := by
    rcases sparse_inUse hx.1 with rfl | rfl
    · decide +kernel
    · have hno : inodeIsDir ((exampleGlobals 16).inodeAt sparseImage 11) = false := by decide +kernel
      exact absurd (hno.symm.trans hdir) (by decide)
  data x hx b hb := by
    have hall : ∀ x ∈ [2,11], ∀ b ∈ ((exampleGlobals 16).inodeAt sparseImage x).iBlock.take 12,
        b ≠ 0 → (exampleGlobals 16).dataBlock b := by decide +kernel
    rcases sparse_inUse hx.1 with rfl | rfl
    · exact hall 2 (by simp) b (maps_direct (by decide +kernel) (by decide +kernel) hb) hb.1
    · exact hall 11 (by simp) b (maps_direct (by decide +kernel) (by decide +kernel) hb) hb.1

end MyFsck
