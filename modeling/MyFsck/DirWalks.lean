import MyFsck.Tour
import MyFsck.Traversal
import MyFsck.BlockMarks

/-! The two walkers that fill an array, as walks of a graph: `directory_traversor` follows the
entries of type directory, `get_true_block_bitmap` every entry, to inodes that are neither symbolic
links nor regular files. -/
namespace MyFsck

open ByteBuffer ErrorState Unfolding Tour

variable {g : Globals} {img : Buf} {w : Tour} {note : ℕ → Fsck Unit} {x : ℕ}

section Traversor

variable {visit : Buf → ℕ → Fsck Buf}

/-- The counters have their size, and the image is `img`. -/
def Counting (g : Globals) (img : Buf) (counts : Buf) (d : Device) : Prop :=
  counts.size = g.superBlock.sInodesCount+1 ∧ d.image = img

theorem traversorEntry_keepsLog (hv : ∀ c k, KeepsLog (visit c k)) (i count off : ℕ) (e : DirEntry)
    (c : Buf) : KeepsLog (traversorEntry visit i count off e c) := by
  refine (KeepsLog.of_readOnly (inBounds_readOnly _)).bind fun c => ?_
  split
  · split
    · exact hv _ _
    · exact .of_readOnly (.pure _)
  · exact .of_readOnly (.pure _)

theorem traversorBlock_keepsLog (hv : ∀ c k, KeepsLog (visit c k)) (i b : ℕ) (c : Buf) :
    KeepsLog (traversorBlock g visit i b c) :=
  (KeepsLog.of_readOnly (block_readOnly g b)).bind fun _ =>
    scanEntries_keepsLog (traversorEntry_keepsLog hv i) _ _ _ _

theorem traversorCall_keepsLog (hn : KeepsLog (note x)) (hv : ∀ c k, KeepsLog (visit c k)) (c : Buf) :
    KeepsLog (traversorCall g note visit c x) :=
  (KeepsLog.of_readOnly (readInode_readOnly g x)).bind fun _ => hn.bind fun _ =>
    forBlocks_keepsLog (traversorBlock_keepsLog hv) _ _ _

theorem traversorNoted_keepsLog (hn : ∀ x, KeepsLog (note x)) (fuel : ℕ) (c : Buf) (x : ℕ) :
    KeepsLog (traversorNoted g note fuel c x) := by
  induction fuel generalizing c x with
  | zero => exact .of_readOnly (.throw _)
  | succ fuel ih => exact traversorCall_keepsLog (hn x) ih c

theorem traversorEntry_walked {i count o : ℕ} {e : DirEntry} (he : e.inode ≤ g.superBlock.sInodesCount)
    (hv : (i ≠ 0 ∨ 2 ≤ count) → dirIsDir e = true → w.Walked (Counting g img) [e.inode]
      (fun c => visit c e.inode) (Counting g img)) (hk : ∀ c k, KeepsLog (visit c k)) :
    w.Walked (Counting g img) (if decide (i ≠ 0 ∨ 2 ≤ count) && dirIsDir e then [e.inode] else [])
      (traversorEntry visit i count o e) (Counting g img) := by
  have hup : w.Walked (Counting g img) [] (fun c => inBounds (countUp c e.inode)) (Counting g img) := by
    refine .step fun c d hc => ⟨addCounts c [e.inode],d,?_,⟨hc.1,hc.2⟩,rfl⟩
    have hlt : e.inode < c.size := by
      rw [hc.1]
      omega
    rw [countUp_eq hlt]
    rfl
  have hrest : w.Walked (Counting g img)
      (if decide (i ≠ 0 ∨ 2 ≤ count) && dirIsDir e then [e.inode] else [])
      (fun c => if i ≠ 0 ∨ 2 ≤ count then if dirIsDir e then visit c e.inode else pure c else pure c)
      (Counting g img) := by
    by_cases hc : i ≠ 0 ∨ 2 ≤ count
    · cases hd : dirIsDir e with
      | true => simpa [hc] using hv hc hd
      | false => simpa [hc] using Walked.pure (w := w) (f := fun c : Buf => c) fun _ _ h => h
    · simpa [hc] using Walked.pure (w := w) (f := fun c : Buf => c) fun _ _ h => h
  refine hup.bind hrest fun c => ?_
  split
  · split
    · exact hk _ _
    · exact .of_readOnly (.pure _)
  · exact .of_readOnly (.pure _)

theorem traversorBlock_walked (hg : Geometry g) (hf : g.Fits img) (hx : DirOk g img x) {i b : ℕ}
    (hb : b ∈ g.dirBlocks img x) (hk : ∀ c k, KeepsLog (visit c k))
    (hv : ∀ k ∈ picked (fun count e => decide (i ≠ 0 ∨ 2 ≤ count) && dirIsDir e) 0
      (entriesOf (g.blockAt img b)), w.Walked (Counting g img) [k] (fun c => visit c k)
        (Counting g img)) :
    w.Walked (Counting g img) (picked (fun count e => decide (i ≠ 0 ∨ 2 ≤ count) && dirIsDir e) 0
      (entriesOf (g.blockAt img b))) (traversorBlock g visit i b) (Counting g img) := by
  have hentries := @Walked.entries w _ (fun count e => decide (i ≠ 0 ∨ 2 ≤ count) && dirIsDir e)
    (traversorEntry visit i) (fun _ _ => Counting g img) (traversorEntry_keepsLog hk i)
    (entriesOf (g.blockAt img b)) 0 fun count o e _ he hpick =>
      traversorEntry_walked (hx.named_le _ (mem_named hb he)) (fun hc hd => hv _ (hpick (by simp [hc,hd]))) hk
  refine hentries.congr fun c d hc => ?_
  have hblk := block_run hg.sizes (d := d) (hc.2 ▸ hf) (hx.blocks_lt b hb)
  have hscan := scanEntries_const (traversorEntry visit i) (hx.wellFormed b hb) 0 c d
  rw [blockAt_size] at hscan
  unfold traversorBlock
  rw [bind_ok hblk,hc.2,hscan]

theorem traversorCall_walked (hg : Geometry g) (hf : g.Fits img) (hx : DirOk g img x)
    (hkids : w.kids x = g.subdirs img x) (hn : w.Notes note x) (hk : ∀ c k, KeepsLog (visit c k))
    (hv : ∀ k ∈ g.subdirs img x, w.Walked (Counting g img) [k] (fun c => visit c k) (Counting g img)) :
    w.Walked (Counting g img) [x] (fun c => traversorCall g note visit c x) (Counting g img) := by
  have hown : ∀ i b, picked (fun count e => decide (i ≠ 0 ∨ 2 ≤ count) && dirIsDir e) 0
      (entriesOf (g.blockAt img b)) =
      ((nonDotFrom i 0 (entriesOf (g.blockAt img b))).filter dirIsDir).map DirEntry.inode :=
    fun i b => picked_nonDot (fun _ _ => rfl) 0 _
  have hblocks : w.Walked (Counting g img) (w.kids x)
      (foldBlocks (traversorBlock g visit) 0 (g.dirBlocks img x)) (Counting g img) := by
    have heq : w.kids x = gathered (fun i b => picked (fun count e =>
        decide (i ≠ 0 ∨ 2 ≤ count) && dirIsDir e) 0 (entriesOf (g.blockAt img b))) 0
        (g.dirBlocks img x) := by
      rw [hkids,gathered_nonDot hown,Globals.subdirs,Globals.nonDot,Globals.dirEntries]
    rw [heq]
    rw [heq] at hkids
    exact Walked.blocks (traversorBlock_keepsLog hk) _ _ fun i b hb hown =>
      traversorBlock_walked hg hf hx hb hk fun k hk' => hv k (hkids ▸ hown k hk')
  refine (Walked.node hn (fun c d d' hc hd => ⟨hc.1,hd.trans hc.2⟩) hblocks).congr fun c d hc => ?_
  have hread := readInode_run hg (d := d) (hc.2 ▸ hf) hx.num_pos hx.num_le
  unfold traversorCall
  rw [bind_ok hread,hc.2,forBlocks_dir]

theorem traversorNoted_walked (hg : Geometry g) (hf : g.Fits img) (hnk : ∀ x, KeepsLog (note x))
    {X : ℕ → Prop} (hX : ∀ y, X y →
      (w.Notes note y ∧ DirOk g img y ∧ w.kids y = g.subdirs img y ∧ ∀ k ∈ g.subdirs img y, X k) ∨
      (note = written ∧ ¬ w.fine y ∧ 1 ≤ y ∧ y ≤ g.superBlock.sInodesCount)) (fuel : ℕ) {x : ℕ}
    (hx : X x) (hfuel : w.Enough fuel x) :
    w.Walked (Counting g img) [x] (fun c => traversorNoted g note fuel c x) (Counting g img) := by
  induction fuel generalizing x with
  | zero => exact .stop hfuel.zero
  | succ fuel ih =>
    have hlog := traversorNoted_keepsLog (g := g) hnk fuel
    rcases hX x hx with ⟨hn,hok,hkids,hsub⟩ | ⟨rfl,hno,h1,hle⟩
    · exact traversorCall_walked hg hf hok hkids hn hlog fun k hk =>
        ih (hsub k hk) (hfuel.kid (hkids ▸ hk))
    · refine (Walked.stray hno fun c => forBlocks_keepsLog (traversorBlock_keepsLog (g := g) hlog) 0
        (g.inodeAt img x).iBlock c).congr fun c d hc => ?_
      have hread := readInode_run hg (d := d) (hc.2 ▸ hf) h1 hle
      rw [traversorNoted,traversorCall,bind_ok hread,hc.2]

end Traversor

/-- `y` leaves the image and the expansions alone, and does not run out of fuel. -/
structure Plain {α : Type} (y : Fsck α) : Prop where
  keepsLog : KeepsLog y
  ends : ∀ d, (∃ a d', y.run d = .ok a d' ∧ d'.image = d.image ∧ expanded d'.out = expanded d.out) ∨
    ∃ e d', e ≠ .outOfFuel ∧ y.run d = .error e d'

namespace Plain

variable {α β : Type}

theorem pure (a : α) : Plain (Pure.pure a : Fsck α) where
  keepsLog := .of_readOnly (.pure a)
  ends d := Or.inl ⟨a,d,rfl,rfl,rfl⟩

theorem inBounds (o : Option α) : Plain (inBounds o) where
  keepsLog := .of_readOnly (inBounds_readOnly o)
  ends d := by
    cases o with
    | none => exact Or.inr ⟨.outOfBounds,d,by decide,rfl⟩
    | some a => exact Or.inl ⟨a,d,rfl,rfl,rfl⟩

theorem bind {y : Fsck α} {f : α → Fsck β} (hy : Plain y) (hf : ∀ a, Plain (f a)) :
    Plain (y >>= f) where
  keepsLog := hy.keepsLog.bind fun a => (hf a).keepsLog
  ends d := by
    rcases hy.ends d with ⟨a,d₁,hr,him,hout⟩ | ⟨e,d₁,he,hr⟩
    · rw [bind_ok hr]
      rcases (hf a).ends d₁ with ⟨b,d₂,hr',him',hout'⟩ | herr
      · exact Or.inl ⟨b,d₂,hr',him'.trans him,hout'.trans hout⟩
      · exact Or.inr herr
    · exact Or.inr ⟨e,d₁,he,bind_error hr⟩

theorem block (g : Globals) (b : ℕ) : Plain (g.block b) where
  keepsLog := .of_readOnly (block_readOnly g b)
  ends d := by
    unfold Globals.block readBlock readSectors
    rw [bind_ok (EStateM.run_get d)]
    cases d.image.window (blockSector g.partitionEntry.start g.blockSize b*sectorSizeBytes)
      (sectorSizeBytes*(g.blockSize/sectorSizeBytes)) with
    | none => exact Or.inr ⟨.exit,d,by decide,rfl⟩
    | some a => exact Or.inl ⟨a,d,rfl,rfl,rfl⟩

end Plain

theorem markSecondLevel_plain (p : Buf) (n turns i k : ℕ) (bm : Buf) :
    Plain (markSecondLevel g p n turns i k bm) := by
  induction turns generalizing i k bm with
  | zero => exact .pure _
  | succ turns ih =>
    rw [markSecondLevel]
    refine (Plain.inBounds _).bind fun id => (Plain.inBounds _).bind fun bm =>
      (Plain.block g _).bind fun p₂ => (Plain.inBounds _).bind fun r => ?_
    obtain ⟨bm,k,returned⟩ := r
    dsimp only
    split
    · exact .pure _
    · exact ih _ _ _

theorem getFileBlockBitmap_plain (bm : Buf) (inode : Inode) :
    Plain (getFileBlockBitmap g bm inode) := by
  unfold getFileBlockBitmap
  dsimp only
  split
  · exact .inBounds _
  · split
    · exact (Plain.inBounds _).bind fun _ => (Plain.inBounds _).bind fun _ =>
        (Plain.block g _).bind fun _ => (Plain.inBounds _).bind fun _ => .pure _
    · split
      · exact (Plain.inBounds _).bind fun _ => (Plain.inBounds _).bind fun _ =>
          (Plain.block g _).bind fun _ => (Plain.inBounds _).bind fun _ =>
            (Plain.inBounds _).bind fun _ => (Plain.block g _).bind fun _ =>
              markSecondLevel_plain _ _ _ _ _ _
      · exact ⟨(KeepsLog.print _).bind fun _ => .of_readOnly (.pure _),
          fun d => Or.inl ⟨bm,_,rfl,rfl,by simp [expanded]⟩⟩

section Bitmap

variable {visit : Buf → ℕ → Fsck Buf}

/-- The inodes the walk takes for directories. -/
def Globals.entered (g : Globals) (img : Buf) (x : ℕ) : Bool :=
  !(inodeIsLnk (g.inodeAt img x) || inodeIsReg (g.inodeAt img x))

/-- The marks have their size, and the image is `img`. -/
def Mapping (g : Globals) (img : Buf) : Buf → Device → Prop := Marking (g.superBlock.sBlocksCount+1) img

/-- Marking the file can stop, at a block outside the file system. -/
def StopsAt (g : Globals) (img : Buf) (inode : Inode) : Prop :=
  ∃ c d e d', Mapping g img c d ∧ (getFileBlockBitmap g c inode).run d = .error e d'

theorem StopsAt.all {inode : Inode} (h : StopsAt g img inode) {c : Buf} {d : Device}
    (hc : Mapping g img c d) : ∃ e d', e ≠ .outOfFuel ∧
      (getFileBlockBitmap g c inode).run d = .error e d' := by
  obtain ⟨c₀,d₀,e₀,d₀',hc₀,hr₀⟩ := h
  have hsize : SameSize c₀ c := hc₀.2.size_eq.trans hc.2.size_eq.symm
  rcases getFileBlockBitmap_alike mark_sameSize g hsize inode d₀ d (hc₀.1.trans hc.1.symm) with
    ⟨a,_,t,_,hr,_⟩ | ⟨e,_,d',_,hr,_⟩
  · rw [hr₀] at hr
    cases hr
  · rcases (getFileBlockBitmap_plain c inode).ends d with ⟨_,_,hr',_⟩ | herr
    · rw [hr] at hr'
      cases hr'
    · exact herr

theorem bitmapEntry_keepsLog (hv : ∀ c k, KeepsLog (visit c k)) (i count off : ℕ) (e : DirEntry)
    (c : Buf) : KeepsLog (bitmapEntry visit i count off e c) := by
  unfold bitmapEntry
  split
  · exact hv _ _
  · exact .of_readOnly (.pure _)

theorem bitmapBlock_keepsLog (hv : ∀ c k, KeepsLog (visit c k)) (i b : ℕ) (c : Buf) :
    KeepsLog (bitmapBlock g visit i b c) :=
  (KeepsLog.of_readOnly (inBounds_readOnly _)).bind fun _ =>
    (KeepsLog.of_readOnly (block_readOnly g b)).bind fun _ =>
      scanEntries_keepsLog (bitmapEntry_keepsLog hv i) _ _ _ _

theorem bitmapCall_keepsLog (hn : KeepsLog (note x)) (hv : ∀ c k, KeepsLog (visit c k)) (c : Buf) :
    KeepsLog (bitmapCall g note visit c x) := by
  refine (KeepsLog.of_readOnly (readInode_readOnly g x)).bind fun inode => ?_
  split
  · exact .of_readOnly (.pure _)
  · split
    · exact (getFileBlockBitmap_plain _ _).keepsLog
    · exact hn.bind fun _ => forBlocks_keepsLog (bitmapBlock_keepsLog hv) _ _ _

theorem bitmapNoted_keepsLog (hn : ∀ x, KeepsLog (note x)) (fuel : ℕ) (c : Buf) (x : ℕ) :
    KeepsLog (bitmapNoted g note fuel c x) := by
  induction fuel generalizing c x with
  | zero => exact .of_readOnly (.throw _)
  | succ fuel ih => exact bitmapCall_keepsLog (hn x) ih c

theorem bitmapBlock_walked (hg : Geometry g) (hf : g.Fits img) (hx : DirOk g img x) {i b : ℕ}
    (hb : b ∈ g.dirBlocks img x) (hk : ∀ c k, KeepsLog (visit c k))
    (hv : ∀ k ∈ picked (fun count _ => decide (i ≠ 0 ∨ 2 ≤ count)) 0 (entriesOf (g.blockAt img b)),
      w.Walked (Mapping g img) [k] (fun c => visit c k) (Mapping g img)) :
    w.Walked (Mapping g img) (picked (fun count _ => decide (i ≠ 0 ∨ 2 ≤ count)) 0
      (entriesOf (g.blockAt img b))) (bitmapBlock g visit i b) (Mapping g img) := by
  have hentries := @Walked.entries w _ (fun count _ => decide (i ≠ 0 ∨ 2 ≤ count))
    (bitmapEntry visit i) (fun _ _ => Mapping g img) (bitmapEntry_keepsLog hk i)
    (entriesOf (g.blockAt img b)) 0 fun count o e _ he hpick => by
      unfold bitmapEntry
      by_cases hc : i ≠ 0 ∨ 2 ≤ count
      · simpa [hc] using hv _ (hpick (by simp [hc]))
      · simpa [hc] using Walked.pure (w := w) (f := fun c : Buf => c) fun _ _ h => h
  have hmark : w.Walked (Mapping g img) [] (fun c => inBounds (mark c b)) (Mapping g img) := by
    refine .step fun c d hc => ?_
    have hlt : b < c.size := by
      rw [hc.2.size_eq]
      exact Nat.lt_succ_of_lt (hx.blocks_lt b hb)
    have hm : mark c b = some (c.set b 1) := Buf.store_eq 1 hlt
    exact ⟨c.set b 1,d,by rw [hm]; rfl,⟨hc.1,hc.2.mark hm⟩,rfl⟩
  have hscan : w.Walked (Mapping g img) (picked (fun count _ => decide (i ≠ 0 ∨ 2 ≤ count)) 0
      (entriesOf (g.blockAt img b))) (fun c => do
        let dir_block ← g.block b
        scanEntries g.blockSize (fun _ => dir_block) (bitmapEntry visit i) g.blockSize 0 0 c)
      (Mapping g img) := by
    refine hentries.congr fun c d hc => ?_
    have hblk := block_run hg.sizes (d := d) (hc.1 ▸ hf) (hx.blocks_lt b hb)
    have hscan := scanEntries_const (bitmapEntry visit i) (hx.wellFormed b hb) 0 c d
    rw [blockAt_size] at hscan
    rw [bind_ok hblk,hc.1,hscan]
  exact hmark.bind hscan fun c => (KeepsLog.of_readOnly (block_readOnly g b)).bind fun _ =>
    scanEntries_keepsLog (bitmapEntry_keepsLog hk i) _ _ _ _

theorem bitmapCall_walked (hg : Geometry g) (hf : g.Fits img) (hx : WalkOk g img x)
    (hkids : w.kids x = g.walkKids img x) (hn : g.entered img x = true → w.Notes note x)
    (hs : g.entered img x = false → w.shown x = false)
    (hfile : inodeIsReg (g.inodeAt img x) = true → ∀ e, e ≠ .outOfFuel →
      StopsAt g img (g.inodeAt img x) → w.stops e)
    (hk : ∀ c k, KeepsLog (visit c k))
    (hv : ∀ k ∈ g.walkKids img x, w.Walked (Mapping g img) [k] (fun c => visit c k)
      (Mapping g img)) :
    w.Walked (Mapping g img) [x] (fun c => bitmapCall g note visit c x) (Mapping g img) := by
  have hread : ∀ c d, Mapping g img c d → (g.readInode x).run d = .ok (g.inodeAt img x) d :=
    fun c d hc => by rw [readInode_run hg (hc.1 ▸ hf) hx.num_pos hx.num_le,hc.1]
  by_cases hlnk : inodeIsLnk (g.inodeAt img x) = true
  · have hleaf : w.kids x = [] := by simp [hkids,Globals.walkKids,hlnk]
    refine Walked.leaf hleaf (hs (by simp [Globals.entered,hlnk])) fun c d hc => Or.inl ⟨c,d,?_,hc,rfl⟩
    unfold bitmapCall
    rw [bind_ok (hread c d hc),if_pos hlnk]
    rfl
  by_cases hreg : inodeIsReg (g.inodeAt img x) = true
  · have hleaf : w.kids x = [] := by simp [hkids,Globals.walkKids,hreg]
    refine Walked.leaf hleaf (hs (by simp [Globals.entered,hreg])) fun c d hc => ?_
    unfold bitmapCall
    rw [bind_ok (hread c d hc),if_neg hlnk,if_pos hreg]
    have hmarks := @getFileBlockBitmap_marking _ c g img (g.inodeAt img x) d hc
    rcases (getFileBlockBitmap_plain c (g.inodeAt img x)).ends d with ⟨c',d',hr,_,hout⟩ | ⟨e,d',he,hr⟩
    · rw [hr] at hmarks
      exact Or.inl ⟨c',d',hr,hmarks,hout⟩
    · exact Or.inr ⟨e,d',hfile hreg e he ⟨c,d,e,d',hc,hr⟩,hr⟩
  · have hdir := hx.dir (by simpa using hlnk) (by simpa using hreg)
    have hent : g.entered img x = true := by simp [Globals.entered,hlnk,hreg]
    have hown : ∀ i b, picked (fun count _ => decide (i ≠ 0 ∨ 2 ≤ count)) 0
        (entriesOf (g.blockAt img b)) = ((nonDotFrom i 0 (entriesOf (g.blockAt img b))).filter
          fun _ => true).map DirEntry.inode := fun i b => picked_nonDot (by simp) 0 _
    have heq : w.kids x = gathered (fun i b => picked (fun count _ => decide (i ≠ 0 ∨ 2 ≤ count)) 0
        (entriesOf (g.blockAt img b))) 0 (g.dirBlocks img x) := by
      rw [gathered_nonDot hown,hkids]
      simp [Globals.walkKids,hlnk,hreg,Globals.nonDot,Globals.dirEntries]
    have hblocks : w.Walked (Mapping g img) (w.kids x)
        (foldBlocks (bitmapBlock g visit) 0 (g.dirBlocks img x)) (Mapping g img) := by
      rw [heq] at hkids ⊢
      exact Walked.blocks (bitmapBlock_keepsLog hk) _ _ fun i b hb hown =>
        bitmapBlock_walked hg hf hdir hb hk fun k hk' => hv k (hkids ▸ hown k hk')
    refine (Walked.node (hn hent) (fun c d d' hc hd => ⟨hd.trans hc.1,hc.2⟩) hblocks).congr
      fun c d hc => ?_
    unfold bitmapCall
    rw [bind_ok (hread c d hc),if_neg hlnk,if_neg hreg,forBlocks_dir]

/-- The walk of `get_true_block_bitmap`: each inode of `X` is a link, a file, or a directory whose
entries name inodes of `X`, or one at which the walk strays, or a file at which it stops. -/
theorem bitmapNoted_walked (hg : Geometry g) (hf : g.Fits img) (hnk : ∀ x, KeepsLog (note x))
    {X : ℕ → Prop} (hX : ∀ y, X y →
      ((g.entered img y = true → w.Notes note y) ∧ (g.entered img y = false → w.shown y = false) ∧
        WalkOk g img y ∧ w.kids y = g.walkKids img y ∧
        (inodeIsReg (g.inodeAt img y) = true → ∀ e, e ≠ .outOfFuel →
          StopsAt g img (g.inodeAt img y) → w.stops e) ∧
        ∀ k ∈ g.walkKids img y, X k) ∨
      (note = written ∧ g.entered img y = true ∧ ¬ w.fine y ∧ 1 ≤ y ∧
        y ≤ g.superBlock.sInodesCount) ∨
      (WalkOk g img y ∧ inodeIsReg (g.inodeAt img y) = true ∧ StopsAt g img (g.inodeAt img y) ∧
        ∀ e, e ≠ .outOfFuel → w.stops e)) (fuel : ℕ) {x : ℕ} (hx : X x) (hfuel : w.Enough fuel x) :
    w.Walked (Mapping g img) [x] (fun c => bitmapNoted g note fuel c x) (Mapping g img) := by
  induction fuel generalizing x with
  | zero => exact .stop hfuel.zero
  | succ fuel ih =>
    have hlog := bitmapNoted_keepsLog (g := g) hnk fuel
    rcases hX x hx with ⟨hn,hs,hok,hkids,hfile,hsub⟩ | ⟨rfl,hent,hno,h1,hle⟩ |
      ⟨hok,hreg,hst,hall⟩
    · exact bitmapCall_walked hg hf hok hkids hn hs hfile hlog fun k hk =>
        ih (hsub k hk) (hfuel.kid (hkids ▸ hk))
    · simp only [Globals.entered,Bool.not_eq_true',Bool.or_eq_false_iff] at hent
      refine (Walked.stray hno fun c => forBlocks_keepsLog (bitmapBlock_keepsLog (g := g) hlog) 0
        (g.inodeAt img x).iBlock c).congr fun c d hc => ?_
      have hread := readInode_run hg (d := d) (hc.1 ▸ hf) h1 hle
      rw [bitmapNoted,bitmapCall,bind_ok hread,hc.1,if_neg (by simp [hent.1]),
        if_neg (by simp [hent.2])]
    · intro c d hc
      obtain ⟨e,d',he,hr⟩ := hst.all hc
      refine Or.inr (Or.inr ⟨e,d',hall e he,?_⟩)
      have hread := readInode_run hg (d := d) (hc.1 ▸ hf) hok.num_pos hok.num_le
      dsimp only
      rw [bitmapNoted,bitmapCall,bind_ok hread,hc.1,if_neg (by simp [reg_not_lnk hreg]),if_pos hreg]
      exact hr

end Bitmap

end MyFsck
