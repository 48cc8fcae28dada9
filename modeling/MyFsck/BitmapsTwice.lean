import MyFsck.PassOrder
import MyFsck.GroupLoop
import MyFsck.BitmapFlips

/-! `pass4` a second time: what it reads is not what it wrote, but for the bitmaps themselves, and these
already are what it would make of them. -/
namespace MyFsck

open ByteBuffer ErrorState

/-- Compare the bit of a block with what it should be. -/
def compareBlock (want : ℕ → Option Byte) (s : Buf × Bool) (block_id : ℕ) : Fsck (Buf × Bool) := do
  let alloc_bit ← inBounds (getBlockAllocBit s.1 block_id)
  let should_be ← inBounds (want block_id)
  checkBit s.1 s.2 block_id should_be alloc_bit

/-- The blocks of the inode tables of the groups. -/
def tableVisits (g : Globals) : List ℕ :=
  (List.range g.getBlockGroupNum).flatMap fun a =>
    (List.range g.getGroupInodeBlockNum).map fun j =>
      u32 (((g.groupDesc a).map GroupDesc.bgInodeTable).getD 0+j)

theorem checkInodeTables_visits {g : Globals} (hdesc : ∀ a < g.getBlockGroupNum, ∃ gd, g.groupDesc a = some gd)
    (s : Buf × Bool) :
    checkInodeTables g s = (tableVisits g).foldlM (compareBlock fun _ => some 1) s := by
  have htable : ∀ gd s, checkTable g s gd =
      ((List.range g.getGroupInodeBlockNum).map fun j => u32 (gd.bgInodeTable+j)).foldlM
        (compareBlock fun _ => some 1) s := by
    intro gd s
    have hone : inBounds (some (1 : Byte)) = pure 1 := rfl
    unfold checkTable compareBlock
    simp only [List.foldlM_map,hone,pure_bind]
  rw [(goesThrough g).tables,tableVisits]
  have hmem : ∀ a ∈ List.range g.getBlockGroupNum, ∃ gd, g.groupDesc a = some gd :=
    fun a ha => hdesc a (List.mem_range.mp ha)
  generalize List.range g.getBlockGroupNum = groups at hmem ⊢
  induction groups generalizing s with
  | nil => rw [List.flatMap_nil,List.foldlM_nil,List.foldlM_nil]
  | cons a groups ih =>
    obtain ⟨gd,hgd⟩ := hmem a (by simp)
    have hread : readGroupDesc g a = pure gd := by
      unfold readGroupDesc
      rw [show decodeGroupDesc g.groupDescBlock (u32 (a*groupDescSize)) = some gd from hgd]
      rfl
    rw [List.foldlM_cons,List.flatMap_cons,List.foldlM_append,hread,pure_bind,htable,hgd,Option.map_some,
      Option.getD_some]
    exact bind_congr fun s => ih s fun b hb => hmem b (by simp [hb])

section Compare

variable {want : ℕ → Option Byte} {w : ℕ → Bool}

/-- The block has a bit in an array of `n` bytes, and it is known what it should be. -/
def Comparable (want : ℕ → Option Byte) (n b : ℕ) : Prop :=
  1 ≤ b ∧ b < 2^32 ∧ (b-1)/8 < n ∧ ∃ v, want b = some v

theorem compareBlock_run (hw : ∀ b v, want b = some v → v = ofBit (w b)) {s : Buf × Bool} {b : ℕ}
    (h : Comparable want s.1.size b) (d : Device) : ∃ s' d', (compareBlock want s b).run d = .ok s' d' ∧
      d'.image = d.image ∧ Repaired w (fun c => c = b) s s' := by
  obtain ⟨h1,h32,hin,v,hv⟩ := h
  obtain ⟨s',d',hrun,him,hrep⟩ := checkBit_run w d h1 h32 hin
  refine ⟨s',d',?_,him,hrep⟩
  unfold compareBlock getBlockAllocBit
  rw [allocBit_eq h1 h32 hin,bind_ok (inBounds_some _ d),hv,bind_ok (inBounds_some _ d),hw b v hv]
  exact hrun

theorem compareBlock_inv {s s' : Buf × Bool} {b : ℕ} {d d' : Device} (hsize : s.1.size < 2^29)
    (h32 : ∀ v, want b = some v → b < 2^32) (h : (compareBlock want s b).run d = .ok s' d') :
    Comparable want s.1.size b := by
  unfold compareBlock at h
  obtain ⟨bit,hbit,h₁⟩ := (inBounds_readOnly _).bind_inv h
  obtain ⟨v,hv,-⟩ := (inBounds_readOnly _).bind_inv h₁
  replace hbit := inBounds_ok hbit
  replace hv := inBounds_ok hv
  have hlt := h32 v hv
  unfold getBlockAllocBit allocBit Buf.load bitsPerByte at hbit
  by_cases hin : pred32 b/8 < s.1.size
  · have h1 : 1 ≤ b := by
      by_contra h0
      have hb : b = 0 := by omega
      subst hb
      unfold pred32 u32 at hin
      omega
    rw [pred32_eq h1 hlt] at hin
    exact ⟨h1,hlt,hin,v,hv⟩
  · simp [hin] at hbit

theorem compareBlocks_run (hw : ∀ b v, want b = some v → v = ofBit (w b)) (l : List ℕ) {s : Buf × Bool}
    (h : ∀ b ∈ l, Comparable want s.1.size b) (d : Device) :
    ∃ s' d', (l.foldlM (compareBlock want) s).run d = .ok s' d' ∧ d'.image = d.image ∧
      Repaired w (fun c => c ∈ l) s s' := by
  induction l generalizing s d with
  | nil => exact ⟨s,d,rfl,rfl,.refl fun b _ => by simp⟩
  | cons b l ih =>
    obtain ⟨s₁,d₁,hrun₁,him₁,hrep₁⟩ := compareBlock_run hw (h b (by simp)) d
    obtain ⟨s₂,d₂,hrun₂,him₂,hrep₂⟩ := @ih s₁ (fun c hc => by
      rw [hrep₁.size_eq]
      exact h c (by simp [hc])) d₁
    refine ⟨s₂,d₂,?_,him₂.trans him₁,(hrep₁.trans hrep₂).congr fun c _ => by simp⟩
    rw [List.foldlM_cons,bind_ok hrun₁]
    exact hrun₂

theorem compareBlocks_inv (hw : ∀ b v, want b = some v → v = ofBit (w b)) (l : List ℕ)
    (h32 : ∀ b ∈ l, ∀ v, want b = some v → b < 2^32) {s s' : Buf × Bool} (hsize : s.1.size < 2^29)
    {d d' : Device} (h : (l.foldlM (compareBlock want) s).run d = .ok s' d') :
    ∀ b ∈ l, Comparable want s.1.size b := by
  induction l generalizing s d with
  | nil => simp
  | cons b l ih =>
    rw [List.foldlM_cons] at h
    obtain ⟨s₁,d₁,hstep,hrest⟩ := bind_ok_inv h
    have hb := compareBlock_inv hsize (h32 b (by simp)) hstep
    obtain ⟨s₂,d₂,hrun,-,hrep⟩ := compareBlock_run hw hb d
    rw [hstep] at hrun
    cases hrun
    intro c hc
    rcases List.mem_cons.mp hc with rfl | hc
    · exact hb
    · have hrest := ih (fun c hc => h32 c (by simp [hc])) (by rw [hrep.size_eq]; exact hsize) hrest c hc
      rwa [hrep.size_eq] at hrest

end Compare

/-- The bitmap blocks of the groups stand apart from each other, from the inode tables in which the walk
of `pass4` finds its inodes, and from the directory and pointer blocks it goes through. -/
structure BitmapsApart (g : Globals) (img : Buf) : Prop where
  each : ∀ a < g.getBlockGroupNum, ∀ c < g.getBlockGroupNum, a ≠ c →
    g.Apart (g.bitmapHome a) (g.bitmapHome c)
  tables : ∀ b c, g.BitmapBlock b → (∃ x, Mapped g img x ∧ g.TableBlock x c) → g.Apart b c
  walked : ∀ b c, g.BitmapBlock b →
    VisitedBlock g img takenForDir (fun _ => true) c ∨ MappedPointer g img c → g.Apart b c

/-- All that `pass4` needs to end well on an image, with the marks `t`. -/
structure Pass4Ready (g : Globals) (fuel : ℕ) (d : Device) (t : Buf) : Prop where
  per_pos : 0 < g.superBlock.sBlocksPerGroup
  bitmaps : OneBlockBitmaps g g.getBlockGroupNum
  fits : ∀ a < g.getBlockGroupNum, g.bitmapOffset a+g.blockSize ≤ d.image.size
  marks : Marks (u32 (g.superBlock.sBlocksCount+1)) t
  walk : ∃ d', (getTrueBlockBitmap g fuel (calloc (g.superBlock.sBlocksCount+1)) rootInodeNum).run d =
    .ok t d' ∧ d'.image = d.image
  first : ∀ b ∈ visits g g.getBlockGroupNum 1,
    Comparable t.load (g.getBlockGroupNum*g.blockSize) b
  tables : ∀ b ∈ tableVisits g, Comparable (fun _ => some 1) (g.getBlockGroupNum*g.blockSize) b

section Ready

variable {g : Globals} {fuel : ℕ} {d : Device} {t : Buf}

theorem load_marked {n : ℕ} (ht : Marks n t) (b : ℕ) (v : Byte) (h : t.load b = some v) :
    v = ofBit (marked t b) := by
  unfold Buf.load at h
  split at h
  · rw [← Option.some.inj h,ht.ofBit_marked]
  · cases h

theorem one_marked (b : ℕ) (v : Byte) (h : (fun _ : ℕ => some (1 : Byte)) b = some v) :
    v = ofBit ((fun _ => true) b) := (Option.some.inj h).symm

theorem Pass4Ready.run (h : Pass4Ready g fuel d t) : ∃ bm d', (pass4 g fuel).run d = .ok () d' ∧
    bm.size = g.getBlockGroupNum*g.blockSize ∧
    d'.image = d.image.scatter g.bitmapOffset g.blockSize bm g.getBlockGroupNum ∧
    ∀ b, 1 ≤ b → bitAt bm b = if b ∈ tableVisits g then true else
      if b ∈ visits g g.getBlockGroupNum 1 then marked t b else
        bitAt (d.image.gather g.bitmapOffset g.blockSize g.getBlockGroupNum) b := by
  obtain ⟨dw,hwalk,himw⟩ := h.walk
  obtain ⟨s₁,d₁,hrun₁,him₁,hrep₁⟩ := compareBlocks_run (load_marked h.marks) _ (s :=
    (d.image.gather g.bitmapOffset g.blockSize g.getBlockGroupNum,false)) h.first dw
  obtain ⟨s₂,d₂,hrun₂,him₂,hrep₂⟩ := compareBlocks_run one_marked (tableVisits g) (s := s₁)
    (fun b hb => by rw [hrep₁.size_eq]; exact h.tables b hb) d₁
  have him : d₂.image = d.image := him₂.trans (him₁.trans himw)
  have hsize : s₂.1.size = g.getBlockGroupNum*g.blockSize := hrep₂.size_eq.trans hrep₁.size_eq
  have hbits : ∀ b, 1 ≤ b → bitAt s₂.1 b = if b ∈ tableVisits g then true else
      if b ∈ visits g g.getBlockGroupNum 1 then marked t b else
        bitAt (d.image.gather g.bitmapOffset g.blockSize g.getBlockGroupNum) b := by
    intro b hb
    split
    · exact hrep₂.fixed b hb ‹_›
    · rw [hrep₂.kept b hb ‹_›]
      split
      · exact hrep₁.fixed b hb ‹_›
      · exact hrep₁.kept b hb ‹_›
  unfold pass4
  rw [checkDivisor_pos h.per_pos,pure_bind,bind_ok (h.bitmaps.load_run h.fits)]
  dsimp only
  rw [bind_ok hwalk,checkGroups_visits,
    show checkBlock t = compareBlock t.load from rfl,bind_ok hrun₁,
    checkInodeTables_visits h.bitmaps.desc,bind_ok hrun₂]
  by_cases hflag : s₂.2 = true
  · rw [if_pos hflag]
    obtain ⟨d₃,hrun₃,him₃⟩ := h.bitmaps.store_run hsize d₂
    exact ⟨s₂.1,d₃,hrun₃,hsize,by rw [him₃,him],hbits⟩
  · rw [if_neg hflag]
    have h₂ := hrep₂.flag (by simpa using hflag)
    have h₁ := hrep₁.flag (by rw [← h₂]; simpa using hflag)
    refine ⟨s₂.1,d₂,rfl,hsize,?_,hbits⟩
    rw [him,h₂,h₁,Buf.scatter_gather h.fits]

theorem Pass4Ready.twice (h : Pass4Ready g fuel d t)
    (hapart : Buf.ChunksApart g.bitmapOffset g.blockSize g.getBlockGroupNum) {d₁ : Device} {u : Unit}
    (hrun : (pass4 g fuel).run d = .ok u d₁)
    (hwalk : ∃ d', (getTrueBlockBitmap g fuel (calloc (g.superBlock.sBlocksCount+1)) rootInodeNum).run d₁ =
      .ok t d' ∧ d'.image = d₁.image) :
    ∃ d₂, (pass4 g fuel).run d₁ = .ok () d₂ ∧ d₂.image = d₁.image := by
  obtain ⟨bm,d',hrun',hsize,him,hbits⟩ := h.run
  rw [hrun] at hrun'
  cases hrun'
  have hgather : d₁.image.gather g.bitmapOffset g.blockSize g.getBlockGroupNum = bm := by
    rw [him,Buf.gather_scatter hapart hsize]
  have hfits : ∀ a < g.getBlockGroupNum, g.bitmapOffset a+g.blockSize ≤ d₁.image.size := by
    rw [him,Buf.scatter_size h.fits]
    exact h.fits
  have hready : Pass4Ready g fuel d₁ t := { h with fits := hfits, walk := hwalk }
  obtain ⟨bm',d₂,hrun₂,hsize',him₂,hbits'⟩ := hready.run
  have hsame : bm' = bm := by
    refine Buf.ext_byte (hsize'.trans hsize.symm) fun k _ => byte_of_bitAt (fun b hb => ?_) k
    rw [hbits' b hb,hgather,hbits b hb]
    split
    · rfl
    · split
      · rfl
      · rfl
  refine ⟨d₂,hrun₂,?_⟩
  rw [him₂,hsame,← hgather,Buf.scatter_gather hfits]

theorem Pass4Ready.of_run (hbs : g.blockSize = 1024) (hper : g.superBlock.sBlocksPerGroup = 8192)
    {d₁ : Device} {u : Unit} (h : (pass4 g fuel).run d = .ok u d₁) : ∃ t, Pass4Ready g fuel d t := by
  have hdvd : sectorSizeBytes ∣ g.blockSize := by rw [hbs]; decide
  unfold pass4 at h
  replace h := (checkDivisor_inv h).2
  obtain ⟨bitmap,hload,h₁⟩ := (getBlockBitmapInPartition_readOnly g).bind_inv h
  obtain ⟨t,dw,hwalk,h₂⟩ := bind_ok_inv h₁
  obtain ⟨s₁,d₂,hfirst,h₃⟩ := bind_ok_inv h₂
  obtain ⟨s₂,d₃,htables,-⟩ := bind_ok_inv h₃
  have hdesc : ∀ a < g.getBlockGroupNum, ∃ gd, g.groupDesc a = some gd := fun a ha =>
    (getBlockBitmapInPartition_inv hload ha).imp fun gd h => h.choose_spec.choose_spec.1
  have hsize : g.getBlockGroupNum*g.blockSize < 2^29 := by
    have hlt : g.getBlockGroupNum*8192 < 2^32 := hper ▸ blockNumbers_lt g
    have hmul : g.getBlockGroupNum*g.blockSize = g.getBlockGroupNum*1024 := congrArg _ hbs
    omega
  have hone : g.getGroupBlockBitmapBlockNum = 1 := by
    rw [Globals.getGroupBlockBitmapBlockNum,hper,hbs]
    rfl
  have hb : OneBlockBitmaps g g.getBlockGroupNum := ⟨hdvd,rfl,hone,by omega,hdesc⟩
  have hfits : ∀ a < g.getBlockGroupNum, g.bitmapOffset a+g.blockSize ≤ d.image.size := by
    intro a ha
    obtain ⟨gd,hgd⟩ := hdesc a ha
    refine getBlockBitmapInPartition_ok hdvd hload ⟨a,ha,gd,hgd,0,by omega,?_⟩
    rw [Globals.bitmapHome,hgd,Nat.add_zero]
  have hm := @getTrueBlockBitmap_marking _ _ g d.image fuel rootInodeNum d
    ⟨rfl,Marks.calloc (g.superBlock.sBlocksCount+1)⟩
  rw [hwalk] at hm
  obtain ⟨him,ht⟩ := hm
  have hbitmap : bitmap = d.image.gather g.bitmapOffset g.blockSize g.getBlockGroupNum := by
    have hrun := hb.load_run hfits
    rw [hload] at hrun
    cases hrun
    rfl
  subst hbitmap
  rw [checkGroups_visits,show checkBlock t = compareBlock t.load from rfl] at hfirst
  have hvisits := compareBlocks_inv (load_marked ht) (visits g g.getBlockGroupNum 1) (fun b _ v hv => by
    unfold Buf.load at hv
    split at hv
    · have := ht.size_eq
      have := u32_lt (g.superBlock.sBlocksCount+1)
      omega
    · cases hv) hsize hfirst
  obtain ⟨s,d',hrun,-,hrep⟩ := compareBlocks_run (load_marked ht) (visits g g.getBlockGroupNum 1) hvisits dw
  rw [hfirst] at hrun
  cases hrun
  rw [checkInodeTables_visits hdesc] at htables
  have htab := compareBlocks_inv one_marked (tableVisits g) (fun b hb v _ => by
    obtain ⟨a,-,hb⟩ := List.mem_flatMap.mp hb
    obtain ⟨j,-,rfl⟩ := List.mem_map.mp hb
    exact u32_lt _) (by rw [hrep.size_eq]; exact hsize) htables
  rw [hrep.size_eq] at htab
  exact ⟨t,by omega,hb,hfits,ht,⟨dw,hwalk,him⟩,hvisits,htab⟩

end Ready

section Twice

variable {g : Globals}

theorem chunksApart_of_apart (hdvd : sectorSizeBytes ∣ g.blockSize) (hpos : 0 < g.blockSize) {n : ℕ}
    (h : ∀ a < n, ∀ c < n, a ≠ c → g.Apart (g.bitmapHome a) (g.bitmapHome c)) :
    Buf.ChunksApart g.bitmapOffset g.blockSize n := by
  intro a ha c hc hne
  have hbs : sectorSizeBytes*(g.blockSize/sectorSizeBytes) = g.blockSize := Nat.mul_div_cancel' hdvd
  by_contra hno
  refine h a ha c hc hne (max (g.bitmapOffset a) (g.bitmapOffset c)) ?_ ?_
  · unfold Globals.InArea
    rw [hbs]
    show g.bitmapOffset a ≤ _ ∧ _ < g.bitmapOffset a+g.blockSize
    omega
  · unfold Globals.InArea
    rw [hbs]
    show g.bitmapOffset c ≤ _ ∧ _ < g.bitmapOffset c+g.blockSize
    omega

/-- On an image of 1 KiB blocks and groups of 8192 of them on which `pass4` ends, a second `pass4` ends
too, and leaves the image as it is. -/
theorem pass4_twice (hbs : g.blockSize = 1024) (hper : g.superBlock.sBlocksPerGroup = 8192)
    {d d₁ : Device} (hs : BitmapsApart g d.image) {fuel : ℕ} {u : Unit}
    (h : (pass4 g fuel).run d = .ok u d₁) :
    ∃ d₂, (pass4 g fuel).run d₁ = .ok () d₂ ∧ d₂.image = d₁.image := by
  have hdvd : sectorSizeBytes ∣ g.blockSize := by rw [hbs]; decide
  obtain ⟨t,hready⟩ := Pass4Ready.of_run hbs hper h
  refine hready.twice (chunksApart_of_apart hdvd (by omega) hs.each) h ?_
  have hagree := pass4_frame hdvd h
  have hsame := getTrueBlockBitmap_same hagree
    (fun x hx => (readInode_same (images_differ hagree) fun b hb k hk ⟨c,hc,hck⟩ =>
      hs.tables c b hc ⟨x,hx,hb⟩ k hck hk).mono fun inode inode' he => by rw [← he]; rfl)
    (fun b hb k hk ⟨c,hc,hck⟩ => hs.walked c b hc (Or.inl hb) k hck hk)
    (fun b hb k hk ⟨c,hc,hck⟩ => hs.walked c b hc (Or.inr hb) k hck hk) fuel .root
    (calloc (g.superBlock.sBlocksCount+1))
  obtain ⟨dw,hwalk,-⟩ := hready.walk
  rcases hsame d d₁ ⟨rfl,rfl⟩ with ⟨a,b,e,e',hrun,hrun',rfl,hims⟩ | ⟨_,_,_,hrun,_⟩
  · rw [hwalk] at hrun
    cases hrun
    exact ⟨e',hrun',hims.2⟩
  · rw [hwalk] at hrun
    cases hrun

end Twice

theorem tree_bitmapsApart : BitmapsApart (exampleGlobals 16) treeImage where
  each a ha c hc hne := by
    have ha' : a < 1 := ha
    have hc' : c < 1 := hc
    omega
  tables b c hb hc := by
    obtain ⟨x,hx,hc⟩ := hc
    have hle : 1 ≤ x ∧ x ≤ (exampleGlobals 16).superBlock.sInodesCount := by
      rcases tree_visited hx with rfl | rfl <;> decide
    intro k hb' hc'
    exact tree_separate.table_bitmap c b ⟨x,hle.1,hle.2,hc⟩ hb k hc' hb'
  walked b c hb hc := tree_separate.bitmap_walked b c hb (Or.inr hc)

theorem pass4_twice_tree : ∃ d₁ d₂, (pass4 (exampleGlobals 16) 3).run ⟨treeImage,[]⟩ = .ok () d₁ ∧
    d₁.out ≠ [] ∧ (pass4 (exampleGlobals 16) 3).run d₁ = .ok () d₂ ∧ d₂.image = d₁.image := by
  obtain ⟨u,d₁,h₁,hout⟩ := exists_of_endsIn (show endsIn (pass4 (exampleGlobals 16) 3) ⟨treeImage,[]⟩
    (fun _ d => decide (d.out ≠ [])) = true by decide +kernel)
  obtain ⟨d₂,h₂,him⟩ := pass4_twice rfl rfl tree_bitmapsApart h₁
  exact ⟨d₁,d₂,h₁,of_decide_eq_true hout,h₂,him⟩

end MyFsck
