import MyFsck.Damage

/-! Images that agree on a set of blocks, and on the inodes but for the link counts. A tree of directories
and a walk of `pass4` that keep to these blocks are the same in both. -/
namespace MyFsck

open ByteBuffer ErrorState Unfolding Tour

theorem gathered_congr {own own' : ℕ → ℕ → List ℕ} {bs : List ℕ}
    (h : ∀ i, ∀ b ∈ bs, own i b = own' i b) (i : ℕ) : gathered own i bs = gathered own' i bs := by
  induction bs generalizing i with
  | nil => rfl
  | cons b bs ih =>
    rw [gathered,gathered,h i b (by simp),ih fun i c hc => h i c (by simp [hc])]

namespace SameButLinks

variable {inode inode' : Inode} (h : SameButLinks inode inode')
include h

theorem block_eq : inode'.iBlock = inode.iBlock := by rw [h]

theorem reg_eq : inodeIsReg inode' = inodeIsReg inode := by
  rw [h]
  rfl

theorem lnk_eq : inodeIsLnk inode' = inodeIsLnk inode := by
  rw [h]
  rfl

theorem marks_eq (g : Globals) (img : Buf) : fileMarks g img inode' = fileMarks g img inode := by
  rw [h]
  rfl

end SameButLinks

theorem DirOk.congr {g : Globals} {img img' : Buf} {x : ℕ} (h : DirOk g img x)
    (hi : (g.inodeAt img' x).iBlock = (g.inodeAt img x).iBlock)
    (hb : ∀ b ∈ g.dirBlocks img x, g.blockAt img' b = g.blockAt img b) : DirOk g img' x := by
  obtain ⟨hblocks,hentries⟩ := dirEntries_congr hi hb
  refine ⟨h.num_pos,h.num_le,fun b hb' => h.blocks_lt b (hblocks ▸ hb'),fun b hb' => ?_,fun n hn => ?_⟩
  · rw [hblocks] at hb'
    rw [hb b hb']
    exact h.wellFormed b hb'
  · rw [Globals.named,hentries] at hn
    exact h.named_le n hn

theorem secondMarks_congr {g : Globals} {img img' p : Buf} {turns q r : ℕ}
    (h : ∀ b ∈ secondMarks g img p turns q r, g.blockAt img' b = g.blockAt img b) :
    secondMarks g img' p turns q r = secondMarks g img p turns q r := by
  induction turns generalizing q r with
  | zero => rfl
  | succ turns ih =>
    simp only [secondMarks] at h ⊢
    rw [h _ (by simp)]
    split
    · rfl
    · rename_i hr
      rw [if_neg hr] at h
      rw [ih fun b hb => h b (by simp [hb])]

theorem fileMarks_congr {g : Globals} {img img' : Buf} {inode : Inode} (h : ∀ b ∈ fileMarks g img inode,
    g.blockAt img' b = g.blockAt img b) : fileMarks g img' inode = fileMarks g img inode := by
  unfold fileMarks at h ⊢
  dsimp only at h ⊢
  split
  · rfl
  · rename_i h₁
    rw [if_neg h₁] at h
    split
    · rename_i h₂
      rw [if_pos h₂] at h
      rw [h _ (by simp)]
    · rename_i h₂
      rw [if_neg h₂] at h
      split
      · rename_i h₃
        rw [if_pos h₃] at h
        have hdind := h (inode.iBlock.getD ext2DindBlock 0) (by simp)
        rw [h (inode.iBlock.getD ext2IndBlock 0) (by simp),hdind,
          secondMarks_congr fun b hb => h b (List.mem_append_right _ (List.mem_cons_of_mem _
            (List.mem_append_right _ (List.mem_cons_of_mem _ hb))))]
      · rfl

/-- The walk of `pass4` ends, and can mark what it comes to. -/
structure Walkable (g : Globals) (img : Buf) : Prop where
  acyclic : Acyclic (g.walkKids img) rootInodeNum
  walk : ∀ x, Reach (g.walkKids img) rootInodeNum x → WalkOk g img x
  files : ∀ x, Reach (g.walkKids img) rootInodeNum x → inodeIsReg (g.inodeAt img x) = true →
    FileOk g img (g.inodeAt img x)

theorem BitsSettled.walkable {g : Globals} {img : Buf} (h : BitsSettled g img) : Walkable g img :=
  ⟨h.acyclic,h.walk,h.files⟩

namespace Walkable

variable {g : Globals} {img : Buf} (h : Walkable g img)
include h

theorem unfolds : ∃ xs, Unfolds (g.walkKids img) [rootInodeNum] xs :=
  h.acyclic.unfolds ((Set.finite_Icc 1 g.superBlock.sInodesCount).subset fun y hy =>
    ⟨(h.walk y hy).num_pos,(h.walk y hy).num_le⟩)

theorem mark_lt {x : ℕ} (hx : Reach (g.walkKids img) rootInodeNum x) :
    ∀ b ∈ g.ownMarks img x, b < g.superBlock.sBlocksCount := by
  intro b hb
  unfold Globals.ownMarks at hb
  by_cases hlnk : inodeIsLnk (g.inodeAt img x) = true
  · rw [if_pos hlnk] at hb
    cases hb
  · rw [if_neg hlnk] at hb
    by_cases hreg : inodeIsReg (g.inodeAt img x) = true
    · rw [if_pos hreg] at hb
      exact h.files x hx hreg b hb
    · rw [if_neg hreg] at hb
      exact ((h.walk x hx).dir (Bool.eq_false_of_not_eq_true hlnk)
        (Bool.eq_false_of_not_eq_true hreg)).blocks_lt b hb

end Walkable

/-- The blocks of `P` are the same in both images, and the inodes are but for their link counts. -/
structure Kept (g : Globals) (P : ℕ → Prop) (img img' : Buf) : Prop where
  inodes : ∀ i, 1 ≤ i → i ≤ g.superBlock.sInodesCount → SameButLinks (g.inodeAt img i) (g.inodeAt img' i)
  blocks : ∀ b, P b → g.blockAt img' b = g.blockAt img b

namespace Kept

variable {g : Globals} {P : ℕ → Prop} {img img' : Buf} {x : ℕ} (h : Kept g P img img')
include h

section Directory

variable (hok : DirOk g img x) (hP : ∀ b ∈ g.dirBlocks img x, P b)
include hok hP

theorem dirEntries : g.dirBlocks img' x = g.dirBlocks img x ∧ g.dirEntries img' x = g.dirEntries img x :=
  dirEntries_congr (h.inodes x hok.num_pos hok.num_le).block_eq fun b hb => h.blocks b (hP b hb)

theorem dirOk : DirOk g img' x :=
  hok.congr (h.inodes x hok.num_pos hok.num_le).block_eq fun b hb => h.blocks b (hP b hb)

theorem named : g.named img' x = g.named img x := by
  rw [Globals.named,(h.dirEntries hok hP).2,Globals.named]

theorem subdirs : g.subdirs img' x = g.subdirs img x := by
  rw [Globals.subdirs,Globals.nonDot,(h.dirEntries hok hP).2,Globals.subdirs,Globals.nonDot]

theorem pass1Kids : g.pass1Kids img' x = g.pass1Kids img x := by
  rw [Globals.pass1Kids,(h.dirEntries hok hP).1]
  exact gathered_congr (fun _ b hb => by rw [h.blocks b (hP b hb)]) 0

theorem dotsRight {p : ℕ} (hd : DotsRight g img p x) : DotsRight g img' p x := by
  intro b hb n hn q hq
  rw [(h.dirEntries hok hP).1] at hb
  rw [h.blocks b (hP b hb)] at hq
  exact hd b hb n hn q hq

end Directory

section Tree

variable (ht : DirTree g img) (hP : ∀ x, Reach (g.subdirs img) rootInodeNum x → ∀ b ∈ g.dirBlocks img x, P b)

omit h in
theorem pass1_reach (hx : Reach (g.pass1Kids img) rootInodeNum x) : Reach (g.subdirs img) rootInodeNum x :=
  Relation.ReflTransGen.mono (fun _ _ hk => pass1Kids_subdirs hk) _ _ hx

include ht hP

theorem reach_subdirs : Reach (g.subdirs img') rootInodeNum x ↔ Reach (g.subdirs img) rootInodeNum x :=
  Reach.congr fun y hy => h.subdirs (ht.dirs y hy) (hP y hy)

theorem reach_pass1Kids :
    Reach (g.pass1Kids img') rootInodeNum x ↔ Reach (g.pass1Kids img) rootInodeNum x :=
  Reach.congr fun y hy => h.pass1Kids (ht.dirs y (pass1_reach hy)) (hP y (pass1_reach hy))

theorem dirTree : DirTree g img' where
  acyclic := ht.acyclic.of_sub fun y hy k hk => by
    have hy' := (h.reach_subdirs ht hP).mp hy
    rwa [h.subdirs (ht.dirs y hy') (hP y hy')] at hk
  dirs y hy := by
    have hy' := (h.reach_subdirs ht hP).mp hy
    exact h.dirOk (ht.dirs y hy') (hP y hy')

theorem dotsSettled (hd : DotsSettled g img) : DotsSettled g img' where
  root := h.dotsRight (ht.dirs _ .refl) (hP _ .refl) hd.root
  kids x hx k hk := by
    rw [h.reach_pass1Kids ht hP] at hx
    rw [h.pass1Kids (ht.dirs x (pass1_reach hx)) (hP x (pass1_reach hx))] at hk
    have hk' := pass1_reach (hx.tail hk)
    exact h.dotsRight (ht.dirs k hk') (hP k hk') (hd.kids x hx k hk)

theorem counted {ds : List ℕ} (hu : Unfolds (g.subdirs img) [rootInodeNum] ds) :
    Unfolds (g.subdirs img') [rootInodeNum] ds ∧ g.counted img' ds = g.counted img ds ∧
      ∀ y ∈ ds, DirOk g img' y := by
  have hreach : ∀ y ∈ ds, Reach (g.subdirs img) rootInodeNum y := fun y hy => hu.mem_iff.mp hy
  refine ⟨hu.congr fun y hy => h.subdirs (ht.dirs y (hreach y hy)) (hP y (hreach y hy)),?_,fun y hy =>
    h.dirOk (ht.dirs y (hreach y hy)) (hP y (hreach y hy))⟩
  exact List.flatMap_congr fun y hy => h.named (ht.dirs y (hreach y hy)) (hP y (hreach y hy))

end Tree

section Walk

variable (hw : WalkOk g img x) (hP : ∀ b ∈ g.ownMarks img x, P b)
include hw hP

theorem walk_dir (hlnk : inodeIsLnk (g.inodeAt img x) = false) (hreg : inodeIsReg (g.inodeAt img x) = false) :
    g.dirBlocks img' x = g.dirBlocks img x ∧ g.dirEntries img' x = g.dirEntries img x ∧ DirOk g img' x := by
  unfold Globals.ownMarks at hP
  rw [hlnk,if_neg Bool.false_ne_true,hreg,if_neg Bool.false_ne_true] at hP
  obtain ⟨hblocks,hentries⟩ := h.dirEntries (hw.dir hlnk hreg) hP
  exact ⟨hblocks,hentries,h.dirOk (hw.dir hlnk hreg) hP⟩

theorem walk_file (hlnk : inodeIsLnk (g.inodeAt img x) = false) (hreg : inodeIsReg (g.inodeAt img x) = true) :
    fileMarks g img' (g.inodeAt img' x) = fileMarks g img (g.inodeAt img x) := by
  unfold Globals.ownMarks at hP
  rw [hlnk,if_neg Bool.false_ne_true,hreg,if_pos rfl] at hP
  rw [(h.inodes x hw.num_pos hw.num_le).marks_eq]
  exact fileMarks_congr fun b hb => h.blocks b (hP b hb)

theorem walkOk : WalkOk g img' x :=
  ⟨hw.num_pos,hw.num_le,fun hlnk hreg => by
    rw [(h.inodes x hw.num_pos hw.num_le).lnk_eq] at hlnk
    rw [(h.inodes x hw.num_pos hw.num_le).reg_eq] at hreg
    exact (h.walk_dir hw hP hlnk hreg).2.2⟩

theorem fileOk (hfile : inodeIsReg (g.inodeAt img x) = true → FileOk g img (g.inodeAt img x))
    (hreg : inodeIsReg (g.inodeAt img' x) = true) : FileOk g img' (g.inodeAt img' x) := by
  rw [(h.inodes x hw.num_pos hw.num_le).reg_eq] at hreg
  unfold FileOk
  rw [h.walk_file hw hP (reg_not_lnk hreg) hreg]
  exact hfile hreg

theorem walk_eq : g.ownMarks img' x = g.ownMarks img x ∧ g.walkKids img' x = g.walkKids img x := by
  have hlnkeq := (h.inodes x hw.num_pos hw.num_le).lnk_eq
  have hregeq := (h.inodes x hw.num_pos hw.num_le).reg_eq
  unfold Globals.ownMarks Globals.walkKids
  by_cases hlnk : inodeIsLnk (g.inodeAt img x) = true
  · simp only [hlnkeq,hlnk,if_true,Bool.true_or,and_self]
  · have hlnk' := Bool.eq_false_of_not_eq_true hlnk
    by_cases hreg : inodeIsReg (g.inodeAt img x) = true
    · have hmarks := h.walk_file hw hP hlnk' hreg
      simp only [hregeq,hreg,hmarks,hlnkeq,if_true,Bool.or_true,and_self]
    · obtain ⟨hblocks,hentries,-⟩ := h.walk_dir hw hP hlnk' (Bool.eq_false_of_not_eq_true hreg)
      rw [hlnkeq,hregeq,if_neg hlnk,if_neg hlnk,if_neg hreg,if_neg hreg,Globals.nonDot,hentries,Globals.nonDot]
      exact ⟨hblocks,rfl⟩

end Walk

section Marks

variable (hw : Walkable g img) (hP : ∀ x, Reach (g.walkKids img) rootInodeNum x → ∀ b ∈ g.ownMarks img x, P b)
include hw hP

theorem reach_walkKids : Reach (g.walkKids img') rootInodeNum x ↔ Reach (g.walkKids img) rootInodeNum x :=
  Reach.congr fun y hy => (h.walk_eq (hw.walk y hy) (hP y hy)).2

theorem walkable : Walkable g img' where
  acyclic := hw.acyclic.of_sub fun y hy k hk => by
    have hy' := (h.reach_walkKids hw hP).mp hy
    rwa [(h.walk_eq (hw.walk y hy') (hP y hy')).2] at hk
  walk x hx := by
    have hx' := (h.reach_walkKids hw hP).mp hx
    exact h.walkOk (hw.walk x hx') (hP x hx')
  files x hx := by
    have hx' := (h.reach_walkKids hw hP).mp hx
    exact h.fileOk (hw.walk x hx') (hP x hx') (hw.files x hx')

theorem marked_iff {b : ℕ} : (∃ x, Reach (g.walkKids img') rootInodeNum x ∧ b ∈ g.ownMarks img' x) ↔
    ∃ x, Reach (g.walkKids img) rootInodeNum x ∧ b ∈ g.ownMarks img x := by
  refine exists_congr fun x => ?_
  rw [h.reach_walkKids hw hP]
  exact and_congr_right fun hx => by rw [(h.walk_eq (hw.walk x hx) (hP x hx)).1]

end Marks

end Kept

end MyFsck
