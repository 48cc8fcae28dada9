import MyFsck.SameBlocks

/-! What a run of the passes comes to. From a tree of directories whose dots are right, `pass3` and `pass4`
make an image at which no pass finds anything more. -/
namespace MyFsck

open ByteBuffer ErrorState Unfolding Tour

theorem SameButLinks.trans {inode inode' inode'' : Inode} (h : SameButLinks inode inode')
    (h' : SameButLinks inode' inode'') : SameButLinks inode inode'' := by
  unfold SameButLinks at *
  rw [h',h]

theorem Kept.trans {g : Globals} {P : ℕ → Prop} {img img₁ img₂ : Buf} (h : Kept g P img img₁)
    (h' : Kept g P img₁ img₂) : Kept g P img img₂ :=
  ⟨fun i h1 hi => (h.inodes i h1 hi).trans (h'.inodes i h1 hi),fun b hb =>
    (h'.blocks b hb).trans (h.blocks b hb)⟩

section Frames

variable {g : Globals} {img : Buf}

theorem setAllLinks_kept (hl : GroupLayout g) (f : ℕ → ℕ) :
    Kept g g.PlainBlock img (g.setAllLinks f img g.inodeNums) := by
  have hnums : ∀ i ∈ g.inodeNums, 1 ≤ i ∧ i ≤ g.superBlock.sInodesCount := fun i hi => mem_inodeNums.mp hi
  refine ⟨fun i h1 hi => ?_,fun b hb => Buf.ext_byte rfl fun j hj => ?_⟩
  · rw [inodeAt_setAllLinks hl.geometry hnums h1 hi,if_pos (mem_inodeNums.mpr ⟨h1,hi⟩)]
    exact rfl
  · have hj' : j < g.blockSize := by simpa using hj
    have hout : ∀ i ∈ g.inodeNums, g.blockOffset b+j ≠ g.linkPos i ∧ g.blockOffset b+j ≠ g.linkPos i+1 := by
      intro i hi
      have hpos := hl.geometry.tables.inodePos_le i
      simp only [inodeSize] at hpos
      have hne := hb.1 i (hnums i hi).1 (hnums i hi).2
      have hdis := hl.geometry.sizes.blocks_disjoint hne
      simp only [Globals.linkPos]
      omega
    have hbyte : (g.setAllLinks f img g.inodeNums).byte (g.blockOffset b+j) = img.byte (g.blockOffset b+j) :=
      setAllLinks_byte hl.geometry hout
    unfold Globals.blockAt
    rwa [Buf.slice_byte _ hj',Buf.slice_byte _ hj']

theorem blockAt_storeBitmap_ne (hl : GroupLayout g) (bm : Buf) {b : ℕ}
    (hb : ∀ a < g.blockGroups, b ≠ g.blockBitmap a) :
    g.blockAt (g.storeBitmap bm img g.blockGroups) b = g.blockAt img b := by
  refine Buf.ext_byte rfl fun j hj => ?_
  have hj' : j < g.blockSize := by simpa using hj
  have hout : ∀ a < g.blockGroups, g.blockOffset b+j < g.blockOffset (g.blockBitmap a) ∨
      g.blockOffset (g.blockBitmap a)+g.blockSize ≤ g.blockOffset b+j := fun a ha => by
    have hdis := hl.geometry.sizes.blocks_disjoint (hb a ha)
    omega
  unfold Globals.blockAt
  rw [Buf.slice_byte _ hj',Buf.slice_byte _ hj']
  exact Buf.scatter_byte_out hout

theorem inodeAt_storeBitmap (hl : GroupLayout g) (bm : Buf) {i : ℕ} (h1 : 1 ≤ i)
    (hi : i ≤ g.superBlock.sInodesCount) :
    g.inodeAt (g.storeBitmap bm img g.blockGroups) i = g.inodeAt img i := by
  rw [Globals.inodeAt,blockAt_storeBitmap_ne hl bm fun a ha => hl.table_ne_bitmap ha (hl.inodeBlock_table h1 hi),
    Globals.inodeAt]

theorem storeBitmap_kept (hl : GroupLayout g) (bm : Buf) :
    Kept g g.PlainBlock img (g.storeBitmap bm img g.blockGroups) :=
  ⟨fun i h1 hi => by rw [inodeAt_storeBitmap hl bm h1 hi]; exact rfl,fun _ hb =>
    blockAt_storeBitmap_ne hl bm hb.2⟩

theorem storeBitmap_fits (hl : GroupLayout g) (hf : g.Fits img) (bm : Buf) :
    g.Fits (g.storeBitmap bm img g.blockGroups) := by
  have hsize : (g.storeBitmap bm img g.blockGroups).size = img.size :=
    Buf.scatter_size fun a ha => hl.geometry.sizes.offset_in hf (hl.bitmap_lt ha).2
  unfold Globals.Fits
  rw [hsize]
  exact hf

theorem flatBitmap_storeBitmap (hl : GroupLayout g) (bm : Buf) {b : ℕ} (h1 : 1 ≤ b)
    (hb : b < g.superBlock.sBlocksCount) :
    bitAt (g.flatBitmap (g.storeBitmap bm img g.blockGroups)) b = bitAt bm b := by
  have hpos := hl.geometry.sizes.block_pos
  have hin : (b-1)/8 < g.blockGroups*g.blockSize := by
    have h₁ := hl.count_le
    have h₂ := Nat.mul_le_mul_left g.blockGroups hl.per_group_le
    rw [hl.block_size]
    omega
  have ha : (b-1)/8/g.blockSize < g.blockGroups := (Nat.div_lt_iff_lt_mul hpos).mpr hin
  have hj := Nat.mod_lt ((b-1)/8) hpos
  have hplace : (b-1)/8 = (b-1)/8/g.blockSize*g.blockSize+(b-1)/8%g.blockSize := by
    rw [Nat.mul_comm]
    exact (Nat.div_add_mod _ _).symm
  generalize (b-1)/8/g.blockSize = a at ha hplace
  generalize (b-1)/8%g.blockSize = j at hj hplace
  unfold bitAt
  rw [hplace,flatBitmap_byte ha hj,← Buf.slice_byte _ hj,← Globals.blockAt,blockAt_storeBitmap hl le_rfl ha,
    Buf.slice_byte _ hj]

end Frames

theorem charLinks_ne_zero {n : ℕ} (h : charLinks n ≠ 0) : n % 256 ≠ 0 := by
  rw [charLinks_eq] at h
  intro hz
  rw [hz] at h
  exact h rfl

/-- A tree of directories whose dots are right, and a walk that can mark what it comes to. The blocks of
either hold no block bitmap and no part of an inode table. -/
structure Righted (g : Globals) (img : Buf) : Prop where
  tree : DirTree g img
  dots : DotsSettled g img
  walk : Walkable g img
  dirs : ∀ x, Reach (g.subdirs img) rootInodeNum x → ∀ b ∈ g.dirBlocks img x, g.PlainBlock b
  marks : ∀ x, Reach (g.walkKids img) rootInodeNum x → ∀ b ∈ g.ownMarks img x, g.PlainBlock b

theorem Righted.plainTree {g : Globals} {img : Buf} (h : Righted g img) : PlainTree g img :=
  ⟨h.dirs,fun x hx b hb => (h.marks x hx b hb).2⟩

theorem Kept.righted {g : Globals} {img img' : Buf} (hk : Kept g g.PlainBlock img img') (h : Righted g img) :
    Righted g img' where
  tree := hk.dirTree h.tree h.dirs
  dots := hk.dotsSettled h.tree h.dirs h.dots
  walk := hk.walkable h.walk h.marks
  dirs x hx := by
    rw [hk.reach_subdirs h.tree h.dirs] at hx
    rw [(hk.dirEntries (h.tree.dirs x hx) (h.dirs x hx)).1]
    exact h.dirs x hx
  marks x hx := by
    rw [hk.reach_walkKids h.walk h.marks] at hx
    rw [(hk.walk_eq (h.walk.walk x hx) (h.marks x hx)).1]
    exact h.marks x hx

namespace Righted

variable {g : Globals} {img : Buf} (hl : GroupLayout g) (hf : g.Fits img) (h : Righted g img) {ds xs : List ℕ}
  (hds : Unfolds (g.subdirs img) [rootInodeNum] ds) (hxs : Unfolds (g.walkKids img) [rootInodeNum] xs)
include hl hf h hds hxs

theorem settles {fuel : ℕ} (hdfuel : ds.length ≤ fuel) (hxfuel : xs.length ≤ fuel) {d : Device}
    (hd : d.image = img) : ∃ d', (pass3 g fuel >>= fun _ => pass4 g fuel).run d = .ok () d' ∧
      Kept g g.PlainBlock img d'.image ∧ g.Fits d'.image ∧ Settled g d'.image := by
  subst hd
  have hnums : ∀ i ∈ g.inodeNums, 1 ≤ i ∧ i ≤ g.superBlock.sInodesCount := fun i hi => mem_inodeNums.mp hi
  obtain ⟨d₃,hrun₃,him₃⟩ := pass3_run hl.geometry hf hds (fun y hy => h.tree.dirs y (hds.mem_iff.mp hy)) hdfuel
  have hk₃ : Kept g g.PlainBlock d.image d₃.image := by
    rw [him₃]
    exact setAllLinks_kept hl _
  have hf₃ : g.Fits d₃.image := by
    rw [him₃]
    exact (setAllLinks_fits hl.geometry hnums hf).1
  have h₃ := hk₃.righted h
  have hcount := hl.count_lt
  have hcalloc : calloc (g.superBlock.sBlocksCount+1) = Buf.zero (g.superBlock.sBlocksCount+1) := by
    rw [calloc,u32_eq (by omega)]
  have hreach : ∀ y ∈ xs, Reach (g.walkKids d.image) rootInodeNum y := fun y hy => hxs.mem_iff.mp hy
  have hxs₃ : Unfolds (g.walkKids d₃.image) [rootInodeNum] xs := hxs.congr fun y hy =>
    (hk₃.walk_eq (h.walk.walk y (hreach y hy)) (h.marks y (hreach y hy))).2
  have hadds := getTrueBlockBitmap_adds hl.geometry hl.block_size hf₃ hxs₃ False
    (fun y hy => ⟨h₃.walk.walk y (hxs₃.mem_iff.mp hy),fun hreg =>
      Or.inl (h₃.walk.files y (hxs₃.mem_iff.mp hy) hreg)⟩)
    fuel hxfuel (Buf.zero (g.superBlock.sBlocksCount+1)) d₃ rfl rfl
  obtain ⟨dw,hwalk,-⟩ := hadds.resolve_right fun hfail => hfail.1
  rw [← hcalloc] at hwalk
  obtain ⟨d₄,bm,hrun₄,him₄,hbits⟩ := MyFsck.pass4_run hl hf₃ hwalk
  have hk₄ : Kept g g.PlainBlock d₃.image d₄.image := by
    rw [him₄]
    exact storeBitmap_kept hl bm
  have hk := hk₃.trans hk₄
  have hf₄ : g.Fits d₄.image := by
    rw [him₄]
    exact storeBitmap_fits hl hf₃ bm
  have h₄ := hk.righted h
  refine ⟨d₄,by rw [bind_ok hrun₃,hrun₄],hk,hf₄,h₄.tree,h₄.dots,fun ds' hds' => ?_,h₄.walk.acyclic,h₄.walk.walk,
    h₄.walk.files,fun b ht => ?_,fun b hb => ?_⟩
  · obtain ⟨hds₄,hsame,-⟩ := hk.counted h.tree h.dirs hds
    obtain rfl := hds'.functional hds₄
    have hlinks : ∀ i, 1 ≤ i → i ≤ g.superBlock.sInodesCount →
        (g.inodeAt d₄.image i).iLinksCount = charLinks ((g.counted d₄.image ds').count i) := by
      intro i h1 hi
      rw [him₄,inodeAt_storeBitmap hl bm h1 hi,him₃,inodeAt_setAllLinks hl.geometry hnums h1 hi,
        if_pos (mem_inodeNums.mpr ⟨h1,hi⟩),← him₃,← him₄,hsame,charLinks]
    refine ⟨hlinks,fun i h1 hi hne _ => charLinks_ne_zero ?_⟩
    rwa [← hlinks i h1 hi]
  · have hlt := hl.tableBlock_lt ht
    rw [him₄,flatBitmap_storeBitmap hl bm hlt.1 hlt.2,hbits b hlt.1,if_pos ht]
  · have hno : ¬ g.tableBlock b := fun ht => by
      have := (hl.tableBlock_place ht).2
      have := hb.2.2
      omega
    rw [him₄,flatBitmap_storeBitmap hl bm hb.1 hb.2.1,hbits b hb.1,if_neg hno,if_pos hb,hcalloc,
      marked_addMarks (by have := hb.2.1; omega),decide_eq_true_eq,List.mem_flatMap,← him₄,
      hk₄.marked_iff h₃.walk h₃.marks]
    simp only [hxs₃.mem_iff]

end Righted

end MyFsck
