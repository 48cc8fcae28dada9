import MyFsck.BlockMarks
import MyFsck.LinkCounts
import MyFsck.Orphans
import MyFsck.DotEntries

/-! Images at which none of the four passes finds anything to repair: their run leaves every byte as
it was. -/
namespace MyFsck

open ByteBuffer ErrorState Unfolding Tour

section Loops

variable {σ : Type} {d : Device} {s : σ}

theorem foldEntries_stays {body : ℕ → ℕ → DirEntry → σ → Fsck σ} {es : List (ℕ × DirEntry)} {count : ℕ}
    (h : ∀ n q, es[n]? = some q → (body (count+n) q.1 q.2 s).run d = .ok s d) :
    (foldEntries body count es s).run d = .ok s d := by
  induction es generalizing count with
  | nil => rfl
  | cons q es ih =>
    have hfirst := h 0 q rfl
    rw [Nat.add_zero] at hfirst
    rw [foldEntries,bind_ok hfirst]
    refine ih fun n q' hq => ?_
    have hrest := h (n+1) q' hq
    rwa [show count+(n+1) = count+1+n by omega] at hrest

theorem foldBlocks_stays {body : ℕ → ℕ → σ → Fsck σ} {bs : List ℕ} {i : ℕ}
    (h : ∀ i, ∀ b ∈ bs, (body i b s).run d = .ok s d) : (foldBlocks body i bs s).run d = .ok s d := by
  induction bs generalizing i with
  | nil => rfl
  | cons b bs ih =>
    rw [foldBlocks,bind_ok (h i b (by simp))]
    exact ih fun i c hc => h i c (by simp [hc])

end Loops

variable (g : Globals) (img : Buf)

/-- In every block of directory `x` with parent `p`, the first two entries name `x` and `p` if they are
of type directory. -/
def DotsRight (p x : ℕ) : Prop := ∀ b ∈ g.dirBlocks img x, ∀ n < 2, ∀ q,
  (entriesOf (g.blockAt img b))[n]? = some q → RightAt p x n q.2

/-- The dots are right in every directory `pass1` comes to. -/
structure DotsSettled : Prop where
  root : DotsRight g img rootInodeNum rootInodeNum
  kids : ∀ x, Reach (g.pass1Kids img) rootInodeNum x → ∀ k ∈ g.pass1Kids img x, DotsRight g img x k

/-- The link counts are those the counters lead to, and no allocated inode is taken for an orphan. -/
structure LinksSettled (ds : List ℕ) : Prop where
  links : ∀ i, 1 ≤ i → i ≤ g.superBlock.sInodesCount →
    (g.inodeAt img i).iLinksCount = charLinks ((g.counted img ds).count i)
  counted : ∀ i, 1 ≤ i → i ≤ g.superBlock.sInodesCount → (g.inodeAt img i).iLinksCount ≠ 0 →
    g.inodeBit img i = true → (g.counted img ds).count i % 256 ≠ 0

/-- The marking walk ends, and the bits that `pass4` compares are right. -/
structure BitsSettled : Prop where
  acyclic : Acyclic (g.walkKids img) rootInodeNum
  walk : ∀ x, Reach (g.walkKids img) rootInodeNum x → WalkOk g img x
  files : ∀ x, Reach (g.walkKids img) rootInodeNum x → inodeIsReg (g.inodeAt img x) = true →
    FileOk g img (g.inodeAt img x)
  tables : ∀ b, g.tableBlock b → bitAt (g.flatBitmap img) b = true
  data : ∀ b, g.dataBlock b → (bitAt (g.flatBitmap img) b = true ↔
    ∃ x, Reach (g.walkKids img) rootInodeNum x ∧ b ∈ g.ownMarks img x)

structure Settled : Prop where
  tree : DirTree g img
  dots : DotsSettled g img
  links : ∀ ds, Unfolds (g.subdirs img) [rootInodeNum] ds → LinksSettled g img ds
  bits : BitsSettled g img

variable {g} {img}

section Passes

variable {d : Device}

/-- In the directory `x` a call of `pass1` with parent `p` finds the first two entries of each block
right, and the other entries lead to `kids`. -/
def QuietDir (g : Globals) (d : Device) (kids : List ℕ) (p x : ℕ) : Prop :=
  ∃ inode, (g.readInode x).run d = .ok inode d ∧ ∀ b ∈ inode.iBlock.takeWhile (· ≠ 0),
    ∃ blk, (g.block b).run d = .ok blk d ∧ blk.size = g.blockSize ∧ WellFormedBlock blk ∧
      (∀ n < 2, ∀ q, (entriesOf blk)[n]? = some q → RightAt p x n q.2) ∧
      ∀ k ∈ picked follows 0 (entriesOf blk), k ∈ kids

theorem pass1Block_settled {visit : ℕ → ℕ → Fsck Unit} {p x b : ℕ} {blk : Buf}
    (hread : (g.block b).run d = .ok blk d) (hsize : blk.size = g.blockSize) (hwf : WellFormedBlock blk)
    (hdots : ∀ n < 2, ∀ q, (entriesOf blk)[n]? = some q → RightAt p x n q.2)
    (hv : ∀ k ∈ picked follows 0 (entriesOf blk), (visit x k).run d = .ok () d) (i : ℕ) :
    (pass1Block g visit p x i b ()).run d = .ok () d := by
  rw [pass1Block_fold hread hsize hwf,bind_ok (foldEntries_stays fun n q hq => ?_)]
  · rfl
  · rw [Nat.zero_add]
    by_cases hn : n < 2
    · rw [pass1Entry_right (hdots n hn q hq)]
      rfl
    · by_cases hd : dirIsDir q.2 = true
      · have hmem : q ∈ (entriesOf blk).drop 2 := by
          refine List.mem_of_getElem? (i := n-2) ?_
          rw [List.getElem?_drop,show 2+(n-2) = n by omega,hq]
        have hk : q.2.inode ∈ picked follows 0 (entriesOf blk) := by
          rw [picked_follows]
          exact List.mem_map_of_mem (List.mem_filter.mpr ⟨List.mem_map_of_mem hmem,hd⟩)
        unfold pass1Entry
        rw [if_pos hd,if_neg (by omega),if_neg (by omega),bind_ok (hv _ hk)]
        rfl
      · rw [pass1Entry_right fun h => absurd h hd]
        rfl

theorem pass1_stays {kids : ℕ → List ℕ} {x : ℕ} {l : List ℕ} (hu : Unfolds kids [x] l) :
    (∀ y ∈ l, ∀ k ∈ kids y, QuietDir g d (kids k) y k) → ∀ p, QuietDir g d (kids x) p x →
      ∀ fuel, l.length ≤ fuel → (pass1 g fuel p x).run d = .ok () d := by
  refine hu.tree_induction (P := fun x l =>
    (∀ y ∈ l, ∀ k ∈ kids y, QuietDir g d (kids k) y k) → ∀ p, QuietDir g d (kids x) p x →
      ∀ fuel, l.length ≤ fuel → (pass1 g fuel p x).run d = .ok () d) fun x l hkids ih hl p hx fuel hfuel => ?_
  rw [List.length_cons] at hfuel
  cases fuel with
  | zero => omega
  | succ fuel =>
    obtain ⟨inode,hread,hblocks⟩ := hx
    rw [pass1_succ,pass1Call,bind_ok hread,notInodeIsDir_false,forBlocks_eq]
    refine (bind_ok (show (silent x).run d = .ok () d from rfl)).trans (foldBlocks_stays fun i b hb => ?_)
    obtain ⟨blk,hblk,hsize,hwf,hdots,hsub⟩ := hblocks b hb
    refine pass1Block_settled hblk hsize hwf hdots (fun k hk => ?_) i
    obtain ⟨m,hm,hml⟩ := hkids.sub_unfolds (hkids.starts_mem k (hsub k hk))
    have hle := hml.length_le
    exact ih k m (hsub k hk) hm hle (fun y hy => hml.subset hy)
      (fun y hy => hl y (by simp [hml.subset hy])) x (hl x (by simp) k (hsub k hk)) fuel (by omega)

theorem DotsRight.quiet (hg : Geometry g) (hf : g.Fits d.image) {p x : ℕ} (hx : DirOk g d.image x)
    (hdots : DotsRight g d.image p x) : QuietDir g d (g.pass1Kids d.image x) p x :=
  ⟨_,readInode_run hg hf hx.num_pos hx.num_le,fun b hb => ⟨_,block_run hg.sizes hf (hx.blocks_lt b hb),
    blockAt_size b,hx.wellFormed b hb,hdots b hb,fun _ hk => mem_gathered hb fun _ => hk⟩⟩

theorem pass2_quiet (hl : GroupLayout g) (hf : g.Fits d.image) {ds : List ℕ}
    (hu : Unfolds (g.subdirs d.image) [rootInodeNum] ds) (hok : ∀ y ∈ ds, DirOk g d.image y)
    (h : ∀ i, 1 ≤ i → i ≤ g.superBlock.sInodesCount → (g.inodeAt d.image i).iLinksCount ≠ 0 →
      g.inodeBit d.image i = true → (g.counted d.image ds).count i % 256 ≠ 0)
    {fuel : ℕ} (hfuel : ds.length ≤ fuel) : (pass2 g fuel).run d = .ok () d := by
  have hwalk := directoryTraversor_run hl.geometry hf hu hok fuel hfuel
    (Buf.zero (g.superBlock.sInodesCount+1)) rfl
  unfold pass2
  rw [calloc_inodes hl.geometry,bind_ok hwalk,bind_ok (getInodeBitmapInPartition_run hl hf)]
  refine (bind_ok (foldlM_stays fun i hi => ?_)).trans rfl
  have hi' := List.mem_range'_1.mp hi
  refine pass2Step_pass hl hf hi'.1 (by omega) rfl (fun hlinks hbit hz => ?_) fuel
  rw [addCounts_zero_byte _ (by omega)] at hz
  refine h i hi'.1 (by omega) hlinks hbit ?_
  have hnum := congrArg BitVec.toNat hz
  simpa using hnum

theorem pass2_settled (hl : GroupLayout g) (hf : g.Fits d.image) {ds : List ℕ}
    (hu : Unfolds (g.subdirs d.image) [rootInodeNum] ds) (hok : ∀ y ∈ ds, DirOk g d.image y)
    (h : LinksSettled g d.image ds) {fuel : ℕ} (hfuel : ds.length ≤ fuel) :
    (pass2 g fuel).run d = .ok () d := pass2_quiet hl hf hu hok h.counted hfuel

theorem pass3_settled (hg : Geometry g) (hf : g.Fits d.image) {ds : List ℕ}
    (hu : Unfolds (g.subdirs d.image) [rootInodeNum] ds) (hok : ∀ y ∈ ds, DirOk g d.image y)
    (h : LinksSettled g d.image ds) {fuel : ℕ} (hfuel : ds.length ≤ fuel) :
    ∃ d', (pass3 g fuel).run d = .ok () d' ∧ d'.image = d.image := by
  obtain ⟨d',hrun,him⟩ := pass3_run hg hf hu hok hfuel
  refine ⟨d',hrun,him.trans (setAllLinks_self hg hf (fun i hi => mem_inodeNums.mp hi) fun i hi => ?_)⟩
  have hi' := mem_inodeNums.mp hi
  exact h.links i hi'.1 hi'.2

theorem BitsSettled.unfolds (h : BitsSettled g img) :
    ∃ xs, Unfolds (g.walkKids img) [rootInodeNum] xs :=
  h.acyclic.unfolds ((Set.finite_Icc 1 g.superBlock.sInodesCount).subset fun y hy =>
    ⟨(h.walk y hy).num_pos,(h.walk y hy).num_le⟩)

theorem pass4_settled (hl : GroupLayout g) (hf : g.Fits d.image) (h : BitsSettled g d.image) {xs : List ℕ}
    (hu : Unfolds (g.walkKids d.image) [rootInodeNum] xs) {fuel : ℕ} (hfuel : xs.length ≤ fuel) :
    ∃ d', (pass4 g fuel).run d = .ok () d' ∧ d'.image = d.image := by
  have hcount := hl.count_lt
  have hcalloc : calloc (g.superBlock.sBlocksCount+1) = Buf.zero (g.superBlock.sBlocksCount+1) := by
    rw [calloc,u32_eq (by omega)]
  have hwalk := getTrueBlockBitmap_adds hl.geometry hl.block_size hf hu False
    (fun y hy => ⟨h.walk y (hu.mem_iff.mp hy),fun hreg => Or.inl (h.files y (hu.mem_iff.mp hy) hreg)⟩)
    fuel hfuel (Buf.zero (g.superBlock.sBlocksCount+1)) d rfl rfl
  obtain ⟨d₁,hrun,_⟩ := hwalk.resolve_right fun hfail => hfail.1
  rw [← hcalloc] at hrun
  obtain ⟨d',bm,hpass,him,hbits⟩ := pass4_run hl hf hrun
  refine ⟨d',hpass,?_⟩
  have hsame : ∀ b, 1 ≤ b → bitAt bm b = bitAt (g.flatBitmap d.image) b := by
    intro b hb
    rw [hbits b hb]
    by_cases ht : g.tableBlock b
    · rw [if_pos ht,h.tables b ht]
    · rw [if_neg ht]
      by_cases hc : g.dataBlock b
      · have hlt := hc.2.1
        rw [if_pos hc,hcalloc,marked_addMarks (by omega),Bool.eq_iff_iff,h.data b hc,decide_eq_true_eq]
        simp [← hu.mem_iff]
      · rw [if_neg hc]
  rw [him,storeBitmap_congr hsame,storeBitmap_flatBitmap hl hf]

end Passes

theorem Settled.passes_run (hl : GroupLayout g) (hf : g.Fits img) (h : Settled g img) :
    ∃ n, ∀ fuel, n ≤ fuel → ∀ d : Device, d.image = img →
      ∃ d', (passes g fuel).run d = .ok () d' ∧ d'.image = img := by
  obtain ⟨ds,hds,hok⟩ := h.tree.unfolds
  obtain ⟨xs,hxs⟩ := h.bits.unfolds
  have hreach : ∀ y, Reach (g.pass1Kids img) rootInodeNum y → y ∈ ds := fun y hy =>
    hds.mem_iff.mpr (Relation.ReflTransGen.mono (fun _ _ hk => pass1Kids_subdirs hk) _ _ hy)
  have hacyclic : Acyclic (g.pass1Kids img) rootInodeNum :=
    h.tree.acyclic.of_sub fun y _ k hk => pass1Kids_subdirs hk
  obtain ⟨ps,hps⟩ := hacyclic.unfolds (ds.finite_toSet.subset fun y hy => hreach y hy)
  refine ⟨ds.length+xs.length+ps.length,fun fuel hfuel d hd => ?_⟩
  subst hd
  have h₁ := pass1_stays hps (fun y hy k hk => (h.dots.kids y (hps.mem_iff.mp hy) k hk).quiet hl.geometry hf
    (hok k (hreach k ((hps.mem_iff.mp hy).tail hk)))) rootInodeNum
    (h.dots.root.quiet hl.geometry hf (hok rootInodeNum (hreach _ .refl))) fuel (by omega)
  have h₂ := pass2_settled hl hf hds hok (h.links ds hds) (show ds.length ≤ fuel by omega)
  obtain ⟨d₃,h₃,him₃⟩ := pass3_settled hl.geometry hf hds hok (h.links ds hds) (show ds.length ≤ fuel by omega)
  have h₄ := fun hbits hu => @pass4_settled g d₃ hl (him₃ ▸ hf) hbits xs hu fuel (by omega)
  rw [him₃] at h₄
  obtain ⟨d₄,h₄,him₄⟩ := h₄ h.bits hxs
  refine ⟨d₄,?_,him₄⟩
  rw [passes,bind_ok h₁,bind_ok h₂,bind_ok h₃,h₄]

end MyFsck
