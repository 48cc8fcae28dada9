import MyFsck.Restored

/-! What the passes find in a file system is decided by its own blocks: whatever else is on the disk, it is
settled or damaged all the same. -/
namespace MyFsck

open ByteBuffer ErrorState Unfolding Tour Mending

/-- All blocks of the file system are the same in both images. -/
def SameBlocks (g : Globals) (img img' : Buf) : Prop :=
  ∀ b < g.superBlock.sBlocksCount, g.blockAt img' b = g.blockAt img b

namespace SameBlocks

variable {g : Globals} {img img' : Buf} (hl : GroupLayout g) (h : SameBlocks g img img')
include h

theorem symm : SameBlocks g img' img := fun b hb => (h b hb).symm

include hl

theorem inode {i : ℕ} (h1 : 1 ≤ i) (hi : i ≤ g.superBlock.sInodesCount) :
    g.inodeAt img' i = g.inodeAt img i := by
  have hlt := (hl.tableBlock_lt (hl.inodeBlock_table h1 hi)).2
  rw [Globals.inodeAt,h _ hlt,Globals.inodeAt]

theorem inodeBit (i : ℕ) : g.inodeBit img' i = g.inodeBit img i := by
  have hflat : g.inodeFlat img' = g.inodeFlat img :=
    Buf.concat_congr fun _ ha => h _ (hl.inodeBitmap_lt (ha.trans_le hl.groups_eq)).2
  rw [Globals.inodeBit,hflat,Globals.inodeBit]

theorem flatBitmap : g.flatBitmap img' = g.flatBitmap img :=
  Buf.concat_congr fun _ ha => h _ (hl.bitmap_lt ha).2

theorem kept : Kept g (· < g.superBlock.sBlocksCount) img img' :=
  ⟨fun _ h1 hi => by rw [h.inode hl h1 hi]; exact rfl,h⟩

section Tree

variable (ht : DirTree g img)
include ht

omit hl h in
theorem dir_lt (x : ℕ) (hx : Reach (g.subdirs img) rootInodeNum x) :
    ∀ b ∈ g.dirBlocks img x, b < g.superBlock.sBlocksCount := (ht.dirs x hx).blocks_lt

theorem linksSettled {ds : List ℕ} (hu : Unfolds (g.subdirs img') [rootInodeNum] ds)
    (hs : ∀ ds, Unfolds (g.subdirs img) [rootInodeNum] ds → LinksSettled g img ds) : LinksSettled g img' ds := by
  have hreach : ∀ y ∈ ds, Reach (g.subdirs img) rootInodeNum y := fun y hy =>
    ((h.kept hl).reach_subdirs ht (dir_lt ht)).mp (hu.mem_iff.mp hy)
  have hu' : Unfolds (g.subdirs img) [rootInodeNum] ds := hu.congr fun y hy =>
    ((h.kept hl).subdirs (ht.dirs y (hreach y hy)) (dir_lt ht y (hreach y hy))).symm
  obtain ⟨-,hcount,-⟩ := (h.kept hl).counted ht (dir_lt ht) hu'
  refine ⟨fun i h1 hi => ?_,fun i h1 hi hne hbit => ?_⟩
  · rw [h.inode hl h1 hi,hcount]
    exact (hs ds hu').links i h1 hi
  · rw [h.inode hl h1 hi] at hne
    rw [h.inodeBit hl] at hbit
    rw [hcount]
    exact (hs ds hu').counted i h1 hi hne hbit

end Tree

theorem bitsSettled (hb : BitsSettled g img) : BitsSettled g img' := by
  have hw := (h.kept hl).walkable hb.walkable fun _ hx => hb.walkable.mark_lt hx
  refine ⟨hw.acyclic,hw.walk,hw.files,fun b ht => ?_,fun b hd => ?_⟩
  · rw [h.flatBitmap hl]
    exact hb.tables b ht
  · rw [h.flatBitmap hl,hb.data b hd]
    exact ((h.kept hl).marked_iff hb.walkable fun _ hx => hb.walkable.mark_lt hx).symm

theorem settled (hs : Settled g img) : Settled g img' where
  tree := (h.kept hl).dirTree hs.tree (dir_lt hs.tree)
  dots := (h.kept hl).dotsSettled hs.tree (dir_lt hs.tree) hs.dots
  links _ hu := h.linksSettled hl hs.tree hu hs.links
  bits := h.bitsSettled hl hs.bits

theorem plainTree (hs : Settled g img) (hp : PlainTree g img) : PlainTree g img' where
  dirs x hx b hb := by
    rw [(h.kept hl).reach_subdirs hs.tree (dir_lt hs.tree)] at hx
    rw [((h.kept hl).dirEntries (hs.tree.dirs x hx) (dir_lt hs.tree x hx)).1] at hb
    exact hp.dirs x hx b hb
  marks x hx b hb := by
    have hw := hs.bits.walkable
    rw [(h.kept hl).reach_walkKids hw fun _ hx => hw.mark_lt hx] at hx
    rw [((h.kept hl).walk_eq (hw.walk x hx) (hw.mark_lt hx)).1] at hb
    exact hp.marks x hx b hb

theorem deepEnough (hs : Settled g img) {n : ℕ} (hn : DeepEnough g img n) : DeepEnough g img' n :=
  (h.kept hl).deepEnough hs.tree (dir_lt hs.tree) hs.bits.walkable (fun _ hx => hs.bits.walkable.mark_lt hx) hn

end SameBlocks

section Damage

variable {g : Globals} {clean clean' : Buf} {d d' : Device}

theorem SameBlocks.dotsBelow (hl : GroupLayout g) (h : SameBlocks g clean clean') (ht : DirTree g clean) :
    g.dotsBelow clean rootInodeNum ⊆ g.dotsBelow clean' rootInodeNum := by
  rintro p ⟨x,hx,b,hb,q,hq,hp⟩
  have hx' := Kept.pass1_reach hx
  refine ⟨x,((h.kept hl).reach_pass1Kids ht (SameBlocks.dir_lt ht)).mpr hx,b,?_,q,?_,hp⟩
  · rwa [((h.kept hl).dirEntries (ht.dirs x hx') (SameBlocks.dir_lt ht x hx')).1]
  · rwa [h b ((ht.dirs x hx').blocks_lt b hb)]

theorem SameBlocks.linkBits (hl : GroupLayout g) (h : SameBlocks g clean clean') :
    g.linkBits clean ⊆ g.linkBits clean' := by
  rintro p ⟨i,h1,hi,hlinks,hp⟩
  refine ⟨i,h1,hi,fun h0 => ?_,hp⟩
  rw [h.inode hl h1 hi] at h0
  rw [h.inodeBit hl]
  exact hlinks h0

theorem Damaged.congr (hl : GroupLayout g) (ht : DirTree g clean) (h : Damaged g clean d)
    (hclean : SameBlocks g clean clean') (hd : SameBlocks g d.image d'.image)
    (hsize : d'.image.size = clean'.size) (hsub : flipped clean' d' ⊆ flipped clean d) :
    Damaged g clean' d' where
  size_eq := hsize
  places := (hsub.trans h.places).trans (Set.union_subset_union (hclean.dotsBelow hl ht)
    (Set.union_subset_union_left _ (hclean.linkBits hl)))
  used x hx b hb q hq := by
    rw [(hclean.kept hl).reach_pass1Kids ht (SameBlocks.dir_lt ht)] at hx
    have hok := ht.dirs x (Kept.pass1_reach hx)
    rw [((hclean.kept hl).dirEntries hok hok.blocks_lt).1] at hb
    rw [hclean b (hok.blocks_lt b hb)] at hq
    rw [hd b (hok.blocks_lt b hb)]
    exact h.used x hx b hb q hq

theorem Damaged.none (ht : DirTree g clean) (out : List Event) : Damaged g clean ⟨clean,out⟩ where
  size_eq := rfl
  places := fun _ hp => absurd rfl hp.2
  used x hx b hb q hq := by
    have hok := ht.dirs x (Kept.pass1_reach hx)
    have hent := (hok.wellFormed b hb).entry_in q (mem_of_dots hq)
    have hpos := (hok.wellFormed b hb).inode_pos q (mem_of_dots hq)
    rw [hent.2.1] at hpos
    exact Nat.ne_of_gt hpos

end Damage

end MyFsck
