import MyFsck.DotsRestored
import MyFsck.Kept

/-! The other three passes on a damaged image whose dots are right again: `pass2` finds nothing to do,
`pass3` puts the link counts right and `pass4` the block bitmaps, so that the whole run gives back the
clean image. -/
namespace MyFsck

open ByteBuffer ErrorState Unfolding Mending

/-- The blocks of the directories of a tree hold no block bitmap and no part of an inode table, and the
blocks that the walk of `pass4` marks hold no block bitmap. -/
structure PlainTree (g : Globals) (img : Buf) : Prop where
  dirs : ∀ x, Reach (g.subdirs img) rootInodeNum x → ∀ b ∈ g.dirBlocks img x, g.PlainBlock b
  marks : ∀ x, Reach (g.walkKids img) rootInodeNum x → ∀ b ∈ g.ownMarks img x,
    ∀ a < g.blockGroups, b ≠ g.blockBitmap a

section Counts

variable {g : Globals} {clean : Buf} {d : Device}

theorem PlainTree.plainDirs (hp : PlainTree g clean) (ht : DirTree g clean) : PlainDirs g clean := by
  intro x hx
  have hx' : Reach (g.subdirs clean) rootInodeNum x :=
    Relation.ReflTransGen.mono (fun _ _ hk => pass1Kids_subdirs hk) _ _ hx
  exact ⟨ht.dirs x hx',hp.dirs x hx'⟩

/-- The damage behind `pass1`. -/
structure DotsDone (g : Globals) (clean : Buf) (d : Device) : Prop extends Damaged g clean d where
  right : Disjoint (flipped clean d) (g.dotsBelow clean rootInodeNum)

theorem DotsDone.plain (hl : GroupLayout g) (h : DotsDone g clean d) {b : ℕ} (hb : g.PlainBlock b) :
    g.blockAt d.image b = g.blockAt clean b := by
  refine Buf.ext_byte rfl fun j hj => ?_
  by_contra hne
  obtain ⟨p,hp,hdot,-⟩ := h.plain_place hl hb (by simpa using hj) hne
  exact Set.disjoint_left.mp h.right hp hdot

theorem DotsDone.kept (hl : GroupLayout g) (hp : PlainDirs g clean) (h : DotsDone g clean d) :
    Kept g g.PlainBlock clean d.image :=
  ⟨fun _ h1 hi => h.inode hl hp h1 hi,fun _ hb => h.plain hl hb⟩

theorem DotsDone.counted_eq (hl : GroupLayout g) (hp : PlainTree g clean) (ht : DirTree g clean)
    (h : DotsDone g clean d) {ds : List ℕ} (hu : Unfolds (g.subdirs clean) [rootInodeNum] ds) :
    Unfolds (g.subdirs d.image) [rootInodeNum] ds ∧ g.counted d.image ds = g.counted clean ds ∧
      ∀ y ∈ ds, DirOk g d.image y :=
  (h.kept hl (hp.plainDirs ht)).counted ht hp.dirs hu

theorem GroupLayout.inodeBitmap_plain (hl : GroupLayout g) {a : ℕ} (ha : a < g.blockGroups) :
    g.PlainBlock (g.inodeBitmap a) := by
  have hskip := hl.skip_lt
  have hplace : (g.inodeBitmap a-1)%g.superBlock.sBlocksPerGroup = 3 := by
    rw [hl.inode_bitmap a ha,Globals.groupStart,show 1+a*g.superBlock.sBlocksPerGroup+3-1 =
      3+a*g.superBlock.sBlocksPerGroup by omega,Nat.add_mul_mod_self_right,Nat.mod_eq_of_lt]
    simp only [Globals.skip] at hskip
    omega
  refine ⟨fun i h1 hi he => ?_,fun c hc he => ?_⟩
  · have h₁ := (hl.tableBlock_place (hl.inodeBlock_table h1 hi)).1
    rw [← he,hplace] at h₁
    omega
  · have h₁ := hl.bitmap_place hc
    rw [← he,hplace] at h₁
    omega

theorem DotsDone.inodeFlat_eq (hl : GroupLayout g) (h : DotsDone g clean d) :
    g.inodeFlat d.image = g.inodeFlat clean :=
  Buf.concat_congr fun _ ha => h.plain hl (hl.inodeBitmap_plain (ha.trans_le hl.groups_eq))

end Counts

section Links

variable {g : Globals} {clean : Buf} {d : Device}

theorem linkPos_apart (hl : GroupLayout g) {i j : ℕ} (hi : 1 ≤ i) (hi' : i ≤ g.superBlock.sInodesCount)
    (hj : 1 ≤ j) (hj' : j ≤ g.superBlock.sInodesCount) (hne : i ≠ j) :
    g.linkPos i+2 ≤ g.linkPos j ∨ g.linkPos j+2 ≤ g.linkPos i := by
  have hpi := hl.geometry.tables.inodePos_le i
  have hpj := hl.geometry.tables.inodePos_le j
  unfold Globals.linkPos
  simp only [inodeSize] at hpi hpj
  by_cases hb : g.inodeBlock i = g.inodeBlock j
  · have hdisj := hl.geometry.inodeTables.inode_disjoint hi hi' hj hj' hne hb
    simp only [inodeSize] at hdisj
    rw [hb]
    omega
  · have hblocks := hl.geometry.sizes.blocks_disjoint hb
    omega

theorem links_num (hl : GroupLayout g) (img : Buf) (i : ℕ) :
    (g.inodeAt img i).iLinksCount = num img.byte (g.linkPos i) 2 := by
  have hpos := hl.geometry.tables.inodePos_le i
  simp only [inodeSize] at hpos
  refine num_congr fun k hk => ?_
  unfold Globals.linkPos
  rw [← Nat.add_assoc,Nat.add_assoc (g.blockOffset _),Nat.add_assoc (g.blockOffset _)]
  exact Buf.slice_byte _ (by omega)

theorem linkPos_ne_bitmap (hl : GroupLayout g) {i a r k : ℕ} (h1 : 1 ≤ i) (hi : i ≤ g.superBlock.sInodesCount)
    (hk : k < 2) (ha : a < g.blockGroups) (hr : r < g.blockSize*8) :
    (g.blockOffset (g.blockBitmap a)*8+r+1-1)/8 ≠ g.linkPos i+k := by
  intro he
  have hpos := hl.geometry.tables.inodePos_le i
  simp only [inodeSize] at hpos
  have htable := hl.inodeBlock_table h1 hi
  refine hl.table_ne_bitmap ha htable (place_block hl.geometry.sizes (j := g.inodePos i+26+k) (by omega) rfl ?_ ?_)
  · simp only [Globals.linkPos] at he
    omega
  · simp only [Globals.linkPos] at he
    omega

theorem DotsDone.unlinked (hl : GroupLayout g) (h : DotsDone g clean d) {i : ℕ} (h1 : 1 ≤ i)
    (hi : i ≤ g.superBlock.sInodesCount) (hlinks : (g.inodeAt clean i).iLinksCount = 0)
    (hbit : g.inodeBit clean i = true) : (g.inodeAt d.image i).iLinksCount = 0 := by
  rw [← hlinks,links_num hl,links_num hl]
  refine num_congr fun k hk => ?_
  by_contra hne
  obtain ⟨p,hp,hpk⟩ := mem_flipped hne
  rcases h.places hp with hdot | ⟨j,hj1,hj,hbits,hjp⟩ | ⟨a,ha,r,hr,rfl,-⟩
  · exact Set.disjoint_left.mp h.right hp hdot
  · by_cases hij : i = j
    · subst hij
      rw [hbits hlinks] at hbit
      cases hbit
    · have := linkPos_apart hl h1 hi hj1 hj hij
      omega
  · exact linkPos_ne_bitmap hl h1 hi hk ha hr hpk

variable {ds : List ℕ} (hl : GroupLayout g) (hf : g.Fits clean) (hp : PlainTree g clean)
  (ht : DirTree g clean) (hu : Unfolds (g.subdirs clean) [rootInodeNum] ds)
  (hs : LinksSettled g clean ds) (h : DotsDone g clean d)

include hl hf hp ht hu hs h

theorem DotsDone.pass2_run {fuel : ℕ} (hfuel : ds.length ≤ fuel) : (pass2 g fuel).run d = .ok () d := by
  obtain ⟨hu',hcount,hok⟩ := h.counted_eq hl hp ht hu
  refine pass2_quiet hl (h.fits hf) hu' hok (fun i h1 hi hlinks hbit => ?_) hfuel
  have hbit' : g.inodeBit clean i = true := by
    rw [Globals.inodeBit,← h.inodeFlat_eq hl]
    exact hbit
  have hlinks' : (g.inodeAt clean i).iLinksCount ≠ 0 := fun h0 => hlinks (h.unlinked hl h1 hi h0 hbit')
  rw [hcount]
  exact hs.counted i h1 hi hlinks' hbit'

theorem DotsDone.pass3_run {fuel : ℕ} (hfuel : ds.length ≤ fuel) : ∃ d', (pass3 g fuel).run d = .ok () d' ∧
    d'.image.size = clean.size ∧ flipped clean d' ⊆ g.bitmapBits := by
  have hfits := h.fits hf
  obtain ⟨hu',hcount,hok⟩ := h.counted_eq hl hp ht hu
  obtain ⟨d',hrun,him⟩ := MyFsck.pass3_run hl.geometry hfits hu' hok hfuel
  have hnums : ∀ i ∈ g.inodeNums, 1 ≤ i ∧ i ≤ g.superBlock.sInodesCount := fun i hi => mem_inodeNums.mp hi
  refine ⟨d',hrun,?_,fun p ⟨h1,hne⟩ => ?_⟩
  · rw [him,(setAllLinks_fits hl.geometry hnums hfits).2,h.size_eq]
  · by_cases hlink : ∃ i ∈ g.inodeNums, (p-1)/8 = g.linkPos i ∨ (p-1)/8 = g.linkPos i+1
    · obtain ⟨i,hi,hpi⟩ := hlink
      have hi' := hnums i hi
      have hnew : (g.inodeAt d'.image i).iLinksCount = (g.inodeAt clean i).iLinksCount := by
        rw [hs.links i hi'.1 hi'.2,charLinks,him,inodeAt_setAllLinks hl.geometry hnums hi'.1 hi'.2,if_pos hi,
          hcount]
      rw [links_num hl,links_num hl] at hnew
      have hbytes := num_inj hnew
      have hbyte : d'.image.byte ((p-1)/8) = clean.byte ((p-1)/8) := by
        rcases hpi with hpi | hpi
        · have hfirst := hbytes 0 (by omega)
          rwa [Nat.add_zero,← hpi] at hfirst
        · rw [hpi]
          exact hbytes 1 (by omega)
      unfold bitAt at hne
      rw [hbyte] at hne
      exact absurd rfl hne
    · have hkept : d'.image.byte ((p-1)/8) = d.image.byte ((p-1)/8) := by
        rw [him]
        refine setAllLinks_byte hl.geometry fun i hi => ?_
        simp only [not_exists,not_and,not_or] at hlink
        exact hlink i hi
      unfold bitAt at hne
      rw [hkept] at hne
      have hold : p ∈ flipped clean d := ⟨h1,hne⟩
      rcases h.places hold with hdot | ⟨i,hi1,hi,-,hpi⟩ | hbit
      · exact absurd hdot (Set.disjoint_left.mp h.right hold)
      · exact absurd ⟨i,mem_inodeNums.mpr ⟨hi1,hi⟩,hpi⟩ hlink
      · exact hbit

end Links

section Bits

variable {g : Globals} {clean : Buf} {d : Device}

/-- The damage behind `pass3`. -/
structure LinksDone (g : Globals) (clean : Buf) (d : Device) : Prop where
  size_eq : d.image.size = clean.size
  places : flipped clean d ⊆ g.bitmapBits

theorem LinksDone.block (hl : GroupLayout g) (h : LinksDone g clean d) {b : ℕ}
    (hb : ∀ a < g.blockGroups, b ≠ g.blockBitmap a) : g.blockAt d.image b = g.blockAt clean b := by
  refine Buf.ext_byte rfl fun j hj => ?_
  by_contra hne
  have hj' : j < g.blockSize := by simpa using hj
  have hbyte : ∀ img : Buf, (g.blockAt img b).byte j = img.byte (g.blockOffset b+j) :=
    fun img => Buf.slice_byte _ hj'
  rw [hbyte,hbyte] at hne
  obtain ⟨p,hp,hk⟩ := mem_flipped hne
  obtain ⟨a,ha,r,hr,rfl,-⟩ := h.places hp
  exact hb a ha (place_block hl.geometry.sizes hj' hk.symm (c := g.blockBitmap a) (by omega) (by omega))

theorem LinksDone.inode (hl : GroupLayout g) (h : LinksDone g clean d) {i : ℕ} (h1 : 1 ≤ i)
    (hi : i ≤ g.superBlock.sInodesCount) : g.inodeAt d.image i = g.inodeAt clean i := by
  have hblock := h.block hl fun a ha => hl.table_ne_bitmap ha (hl.inodeBlock_table h1 hi)
  rw [Globals.inodeAt,hblock,Globals.inodeAt]

theorem LinksDone.kept (hl : GroupLayout g) (h : LinksDone g clean d) :
    Kept g (fun b => ∀ a < g.blockGroups, b ≠ g.blockBitmap a) clean d.image :=
  ⟨fun _ h1 hi => by rw [h.inode hl h1 hi]; exact rfl,fun _ hb => h.block hl hb⟩

theorem flatBitmap_byte {a j : ℕ} (ha : a < g.blockGroups) (hj : j < g.blockSize) (img : Buf) :
    (g.flatBitmap img).byte (a*g.blockSize+j) = img.byte (g.blockOffset (g.blockBitmap a)+j) := by
  have hslice : ((g.flatBitmap img).slice (a*g.blockSize) g.blockSize).byte j = _ :=
    congrArg (fun b => b.byte j) (flatBitmap_slice ha)
  rw [← Buf.slice_byte (g.flatBitmap img) hj,hslice]
  exact Buf.slice_byte _ hj

@[simp] theorem flatBitmap_size (img : Buf) : (g.flatBitmap img).size = g.blockGroups*g.blockSize := by
  simp [Globals.flatBitmap]

theorem LinksDone.flat_eq (hl : GroupLayout g) (h : LinksDone g clean d) {b : ℕ} (h1 : 1 ≤ b)
    (ht : ¬ g.tableBlock b) (hd : ¬ g.dataBlock b) :
    bitAt (g.flatBitmap d.image) b = bitAt (g.flatBitmap clean) b := by
  have hpos := hl.geometry.sizes.block_pos
  by_cases hin : (b-1)/8 < g.blockGroups*g.blockSize
  · have ha : (b-1)/8/g.blockSize < g.blockGroups := (Nat.div_lt_iff_lt_mul hpos).mpr hin
    have hj := Nat.mod_lt ((b-1)/8) hpos
    have hdiv := Nat.div_add_mod ((b-1)/8) g.blockSize
    generalize (b-1)/8/g.blockSize = a at ha hdiv
    generalize (b-1)/8%g.blockSize = j at hj hdiv
    have hplace : (b-1)/8 = a*g.blockSize+j := by rw [← hdiv,Nat.mul_comm]
    unfold bitAt
    rw [hplace,flatBitmap_byte ha hj,flatBitmap_byte ha hj]
    by_contra hne
    have hk : ((g.blockOffset (g.blockBitmap a)+j)*8+(b-1)%8+1-1)/8 = g.blockOffset (g.blockBitmap a)+j := by
      omega
    have hflip : (g.blockOffset (g.blockBitmap a)+j)*8+(b-1)%8+1 ∈ flipped clean d := by
      refine ⟨by omega,?_⟩
      unfold bitAt
      rw [hk,show ((g.blockOffset (g.blockBitmap a)+j)*8+(b-1)%8+1-1)%8 = (b-1)%8 by omega]
      exact hne
    obtain ⟨c,hc,r,hr,hp,hbit⟩ := h.places hflip
    have hsame := place_block hl.geometry.sizes hj rfl (c := g.blockBitmap c)
      (b := g.blockBitmap a) (by omega) (by omega)
    obtain rfl := hl.bitmap_inj ha hc hsame
    have hb : a*g.blockSize*8+r+1 = b := by omega
    rw [hb] at hbit
    exact hbit.elim ht hd
  · unfold bitAt
    rw [Buf.past_end _ _ (by simpa using hin),Buf.past_end _ _ (by simpa using hin)]

theorem LinksDone.stored (hl : GroupLayout g) (hf : g.Fits clean) (h : LinksDone g clean d) :
    g.storeBitmap (g.flatBitmap clean) d.image g.blockGroups = clean := by
  have hfits : ∀ a < g.blockGroups, g.blockOffset (g.blockBitmap a)+g.blockSize ≤ d.image.size := by
    intro a ha
    rw [h.size_eq]
    exact hl.geometry.sizes.offset_in hf (hl.bitmap_lt ha).2
  have hsize : (g.storeBitmap (g.flatBitmap clean) d.image g.blockGroups).size = clean.size :=
    (Buf.scatter_size hfits).trans h.size_eq
  refine Buf.ext_byte hsize fun k _ => ?_
  by_cases hin : ∃ a < g.blockGroups, g.blockOffset (g.blockBitmap a) ≤ k ∧
      k < g.blockOffset (g.blockBitmap a)+g.blockSize
  · obtain ⟨a,ha,hk,hk'⟩ := hin
    obtain ⟨j,rfl⟩ := Nat.exists_eq_add_of_le hk
    have hj : j < g.blockSize := by omega
    have hblock : g.blockAt (g.storeBitmap (g.flatBitmap clean) d.image g.blockGroups) (g.blockBitmap a) = _ :=
      blockAt_storeBitmap hl le_rfl ha
    rw [flatBitmap_slice ha] at hblock
    rw [← Buf.slice_byte clean hj,← Buf.slice_byte _ hj]
    exact congrArg (fun b => b.byte j) hblock
  · simp only [not_exists,not_and,not_lt] at hin
    have hout : ∀ a < g.blockGroups, k < g.blockOffset (g.blockBitmap a) ∨
        g.blockOffset (g.blockBitmap a)+g.blockSize ≤ k := fun a ha => by
      by_cases hk : g.blockOffset (g.blockBitmap a) ≤ k
      · exact Or.inr (hin a ha hk)
      · exact Or.inl (by omega)
    refine (Buf.scatter_byte_out hout).trans ?_
    by_contra hne
    obtain ⟨p,hp,hpk⟩ := mem_flipped hne
    obtain ⟨a,ha,r,hr,rfl,-⟩ := h.places hp
    have := hout a ha
    omega

theorem LinksDone.pass4_run (hl : GroupLayout g) (hf : g.Fits clean) (hp : PlainTree g clean)
    (hb : BitsSettled g clean) (h : LinksDone g clean d) {xs : List ℕ}
    (hu : Unfolds (g.walkKids clean) [rootInodeNum] xs) {fuel : ℕ} (hfuel : xs.length ≤ fuel) :
    ∃ d', (pass4 g fuel).run d = .ok () d' ∧ d'.image = clean := by
  have hfits : g.Fits d.image := by
    unfold Globals.Fits
    rw [h.size_eq]
    exact hf
  have hkept := h.kept hl
  have hok := fun y (hy : y ∈ xs) => hb.walk y (hu.mem_iff.mp hy)
  have hplain := fun y (hy : y ∈ xs) => hp.marks y (hu.mem_iff.mp hy)
  have hcount := hl.count_lt
  have hcalloc : calloc (g.superBlock.sBlocksCount+1) = Buf.zero (g.superBlock.sBlocksCount+1) := by
    rw [calloc,u32_eq (by omega)]
  have hadds := getTrueBlockBitmap_adds hl.geometry hl.block_size hfits
    (hu.congr fun y hy => (hkept.walk_eq (hok y hy) (hplain y hy)).2)
    False (fun y hy => ⟨hkept.walkOk (hok y hy) (hplain y hy),fun hreg =>
      Or.inl (hkept.fileOk (hok y hy) (hplain y hy) (hb.files y (hu.mem_iff.mp hy)) hreg)⟩)
    fuel hfuel (Buf.zero (g.superBlock.sBlocksCount+1)) d rfl rfl
  obtain ⟨d₁,hrun,_⟩ := hadds.resolve_right fun hfail => hfail.1
  have hmarks : xs.flatMap (g.ownMarks d.image) = xs.flatMap (g.ownMarks clean) :=
    List.flatMap_congr fun y hy => (hkept.walk_eq (hok y hy) (hplain y hy)).1
  rw [← hcalloc,hmarks] at hrun
  obtain ⟨d',bm,hpass,him,hbits⟩ := MyFsck.pass4_run hl hfits hrun
  refine ⟨d',hpass,?_⟩
  have hsame : ∀ b, 1 ≤ b → bitAt bm b = bitAt (g.flatBitmap clean) b := by
    intro b h1
    rw [hbits b h1]
    by_cases ht : g.tableBlock b
    · rw [if_pos ht,hb.tables b ht]
    · rw [if_neg ht]
      by_cases hd : g.dataBlock b
      · have hlt := hd.2.1
        rw [if_pos hd,hcalloc,marked_addMarks (by omega),Bool.eq_iff_iff,hb.data b hd,decide_eq_true_eq]
        simp [← hu.mem_iff]
      · rw [if_neg hd,h.flat_eq hl h1 ht hd]
  rw [him,storeBitmap_congr hsame,h.stored hl hf]

end Bits

/-- The walks of all passes end at depth `n`. -/
def DeepEnough (g : Globals) (img : Buf) (n : ℕ) : Prop := ∃ ds ps xs,
  Unfolds (g.subdirs img) [rootInodeNum] ds ∧ Unfolds (g.pass1Kids img) [rootInodeNum] ps ∧
    Unfolds (g.walkKids img) [rootInodeNum] xs ∧ ds.length+ps.length+xs.length ≤ n

theorem Kept.deepEnough {g : Globals} {P : ℕ → Prop} {img img' : Buf} (h : Kept g P img img')
    (ht : DirTree g img) (hP : ∀ x, Reach (g.subdirs img) rootInodeNum x → ∀ b ∈ g.dirBlocks img x, P b)
    (hw : Walkable g img) (hP' : ∀ x, Reach (g.walkKids img) rootInodeNum x → ∀ b ∈ g.ownMarks img x, P b)
    {n : ℕ} (hn : DeepEnough g img n) : DeepEnough g img' n := by
  obtain ⟨ds,ps,xs,hds,hps,hxs,hle⟩ := hn
  refine ⟨ds,ps,xs,hds.congr fun y hy => ?_,hps.congr fun y hy => ?_,hxs.congr fun y hy => ?_,hle⟩
  · have hy' := hds.mem_iff.mp hy
    exact h.subdirs (ht.dirs y hy') (hP y hy')
  · have hy' := Kept.pass1_reach (hps.mem_iff.mp hy)
    exact h.pass1Kids (ht.dirs y hy') (hP y hy')
  · have hy' := hxs.mem_iff.mp hy
    exact (h.walk_eq (hw.walk y hy') (hP' y hy')).2

section Run

variable {g : Globals} {clean : Buf}

theorem Settled.deepEnough (hs : Settled g clean) : ∃ n, ∀ fuel, n ≤ fuel → DeepEnough g clean fuel := by
  obtain ⟨ds,hds,-⟩ := hs.tree.unfolds
  obtain ⟨xs,hxs⟩ := hs.bits.unfolds
  have hreach : ∀ y, Reach (g.pass1Kids clean) rootInodeNum y → y ∈ ds := fun y hy =>
    hds.mem_iff.mpr (Relation.ReflTransGen.mono (fun _ _ hk => pass1Kids_subdirs hk) _ _ hy)
  have hacyclic : Acyclic (g.pass1Kids clean) rootInodeNum :=
    hs.tree.acyclic.of_sub fun y _ k hk => pass1Kids_subdirs hk
  obtain ⟨ps,hps⟩ := hacyclic.unfolds (ds.finite_toSet.subset fun y hy => hreach y hy)
  exact ⟨_,fun fuel hfuel => ⟨ds,ps,xs,hds,hps,hxs,hfuel⟩⟩

theorem Settled.passes_restore (hl : GroupLayout g) (hf : g.Fits clean) (hs : Settled g clean)
    (hp : PlainTree g clean) {fuel : ℕ} (hfuel : DeepEnough g clean fuel) {d : Device}
    (hd : Damaged g clean d) : ∃ d', (passes g fuel).run d = .ok () d' ∧ d'.image = clean := by
  obtain ⟨ds,ps,xs,hds,hps,hxs,hle⟩ := hfuel
  obtain ⟨_,d₁,h₁,hd₁,hsub⟩ := pass1_restores hl hf (hp.plainDirs hs.tree) hs.dots hps .refl
    rootInodeNum hs.dots.root fuel (by omega) d hd
  have hdone : DotsDone g clean d₁ := ⟨hd₁,Set.disjoint_sdiff_left.mono_left hsub⟩
  have h₂ := hdone.pass2_run hl hf hp hs.tree hds (hs.links ds hds) (show ds.length ≤ fuel by omega)
  obtain ⟨d₃,h₃,hsize,hplaces⟩ :=
    hdone.pass3_run hl hf hp hs.tree hds (hs.links ds hds) (show ds.length ≤ fuel by omega)
  obtain ⟨d₄,h₄,him⟩ := LinksDone.pass4_run hl hf hp hs.bits ⟨hsize,hplaces⟩ hxs (show xs.length ≤ fuel by omega)
  refine ⟨d₄,?_,him⟩
  rw [passes,bind_ok h₁,bind_ok h₂,bind_ok h₃,h₄]

end Run

end MyFsck
