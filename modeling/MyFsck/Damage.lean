import MyFsck.Settled
import MyFsck.PassOrder
import MyFsck.Mending

/-! Damage that the four passes can undo: wrong numbers in the dots of directories, wrong link counts and
wrong bits of the block bitmaps; and how `pass1` puts the dots right again. -/
namespace MyFsck

open ByteBuffer ErrorState Unfolding Mending

/-- An entry with the inode number that stands at its place in `b`. -/
def renumbered (b : Buf) (q : ℕ × DirEntry) : ℕ × DirEntry := (q.1,{ q.2 with inode := num b.byte q.1 4 })

section Renumbering

variable {b b' : Buf} {off : ℕ} {es : List (ℕ × DirEntry)}

theorem entryAt_renumbered (hs : b'.size = b.size) (hin : off+4 ≤ b.size)
    (h : ∀ j, off+4 ≤ j → j < off+8+(entryAt b off).nameLen → b'.byte j = b.byte j) :
    entryAt b' off = { entryAt b off with inode := num b'.byte off 4 } := by
  have hv : num b'.byte off 4 < 2^32 := (num_lt _ _ _).trans_eq (by norm_num)
  rw [← entryAt_putNum hin hv]
  refine (entryAt_congr fun j hj hlt => ?_).symm
  rw [entryAt_putNum hin hv] at hlt
  by_cases hfield : j < off+4
  · have hsame : b'.putNum off (num b'.byte off 4) 4 = b' := Buf.putNum_num (by omega)
      (Nat.mod_eq_of_lt (num_lt _ _ _)).symm
    obtain ⟨k,rfl⟩ := Nat.exists_eq_add_of_le hj
    have hk : k < 4 := by omega
    have hbyte := Buf.putNum_byte_in (v := num b'.byte off 4) hk (show off+4 ≤ b'.size by omega)
    rw [hsame] at hbyte
    rw [Buf.putNum_byte_in hk hin,hbyte]
  · rw [Buf.putNum_byte_out (by omega),h j (by omega) hlt]

theorem Chain.renumber (h : Chain b off es) (hs : b'.size = b.size)
    (hb : ∀ j, off ≤ j → b'.byte j ≠ b.byte j → ∃ q ∈ es, q.1 ≤ j ∧ j < q.1+4)
    (hn : ∀ q ∈ es, num b'.byte q.1 4 ≠ 0) : Chain b' off (es.map (renumbered b')) := by
  have hsame : ∀ {off : ℕ} {es : List (ℕ × DirEntry)}, Chain b off es →
      (∀ j, off ≤ j → b'.byte j ≠ b.byte j → ∃ q ∈ es, q.1 ≤ j ∧ j < q.1+4) → es = [] →
      num b'.byte off 4 = num b.byte off 4 := by
    rintro off es - hb rfl
    refine num_congr fun k _ => ?_
    by_contra hne
    obtain ⟨q,hq,-⟩ := hb _ (by omega) hne
    cases hq
  induction h with
  | done =>
    rw [← hs]
    exact .done
  | unused hle hz => exact .unused (by omega) ((hsame (.unused hle hz) hb rfl).trans hz)
  | @live off es hne hl hrest ih =>
    have hle := hrest.le_size
    have hbehind : ∀ j, off+4 ≤ j → b'.byte j ≠ b.byte j → ∃ q ∈ es, q.1 ≤ j ∧ j < q.1+4 := by
      intro j hj hjb
      obtain ⟨q,hq,hplace⟩ := hb j (by omega) hjb
      rcases List.mem_cons.mp hq with rfl | hq
      · exact absurd hplace.2 (by simp only; omega)
      · exact ⟨q,hq,hplace⟩
    have hent : entryAt b' off = _ := entryAt_renumbered hs (by omega) fun j hj hlt => by
      by_contra hjb
      obtain ⟨q,hq,hplace⟩ := hbehind j hj hjb
      have := (hrest.entry_in q hq).1
      omega
    have hrest' := ih (fun j hj => hbehind j (by omega)) fun q hq => hn q (by simp [hq])
    rw [List.map_cons,renumbered,← hent]
    refine .live (hn (off,entryAt b off) (by simp)) ?_ ?_
    · rw [hent]
      exact hl
    · rw [hent]
      exact hrest'

theorem Chain.places (h : Chain b off es) : es.Pairwise fun p q => p.1+8 ≤ q.1 := by
  induction h with
  | done => exact .nil
  | unused _ _ => exact .nil
  | live _ hl hrest ih =>
    refine .cons (fun q hq => ?_) ih
    have := (hrest.entry_in q hq).1
    simp only
    omega

theorem Chain.places_apart (h : Chain b off es) : ∀ p ∈ es, ∀ q ∈ es,
    p.1 = q.1 ∨ p.1+8 ≤ q.1 ∨ q.1+8 ≤ p.1 := by
  refine List.Pairwise.forall_of_forall_of_flip (fun _ _ => Or.inl rfl) ?_ ?_
  · exact h.places.imp fun hpq => Or.inr (Or.inl hpq)
  · exact h.places.imp fun hpq => Or.inr (Or.inr hpq)

end Renumbering

theorem mem_of_dots {es : List (ℕ × DirEntry)} {q : ℕ × DirEntry} (h : q ∈ dots es) : q ∈ es :=
  List.mem_of_mem_take (List.mem_filter.mp h).1

/-- The bits in which the image of a device is not `clean`, the first bit being number 1. -/
def flipped (clean : Buf) (d : Device) : Set ℕ := {p | 1 ≤ p ∧ bitAt d.image p ≠ bitAt clean p}

section Places

variable (g : Globals) (img : Buf)

/-- The bits of the inode numbers in the dots of block `b`. -/
def Globals.dotBits (b : ℕ) : Set ℕ := {p | ∃ q ∈ dots (entriesOf (g.blockAt img b)),
  g.blockOffset b+q.1 ≤ (p-1)/8 ∧ (p-1)/8 < g.blockOffset b+q.1+4}

/-- Those of the directories reached from `x`. -/
def Globals.dotsBelow (x : ℕ) : Set ℕ :=
  {p | ∃ y, Reach (g.pass1Kids img) x y ∧ ∃ b ∈ g.dirBlocks img y, p ∈ g.dotBits img b}

/-- The bits of the link counts, but for those that are 0 in an allocated inode. -/
def Globals.linkBits : Set ℕ := {p | ∃ i, 1 ≤ i ∧ i ≤ g.superBlock.sInodesCount ∧
  ((g.inodeAt img i).iLinksCount = 0 → g.inodeBit img i = false) ∧
  ((p-1)/8 = g.linkPos i ∨ (p-1)/8 = g.linkPos i+1)}

/-- The bits of the block bitmaps that stand for blocks of the inode tables or behind the metadata. -/
def Globals.bitmapBits : Set ℕ := {p | ∃ a < g.blockGroups, ∃ r < g.blockSize*8,
  p = g.blockOffset (g.blockBitmap a)*8+r+1 ∧
  (g.tableBlock (a*g.blockSize*8+r+1) ∨ g.dataBlock (a*g.blockSize*8+r+1))}

/-- The image of the device is `clean` but for wrong numbers in the dots, none of them 0, for wrong link
counts, and for wrong bits of the block bitmaps. -/
structure Damaged (d : Device) : Prop where
  size_eq : d.image.size = img.size
  places : flipped img d ⊆ g.dotsBelow img rootInodeNum ∪ (g.linkBits img ∪ g.bitmapBits)
  used : ∀ x, Reach (g.pass1Kids img) rootInodeNum x → ∀ b ∈ g.dirBlocks img x,
    ∀ q ∈ dots (entriesOf (g.blockAt img b)), num (g.blockAt d.image b).byte q.1 4 ≠ 0

/-- The block holds neither a block bitmap nor a part of an inode table. -/
def Globals.PlainBlock (b : ℕ) : Prop :=
  (∀ i, 1 ≤ i → i ≤ g.superBlock.sInodesCount → b ≠ g.inodeBlock i) ∧
    ∀ a < g.blockGroups, b ≠ g.blockBitmap a

/-- The directories `pass1` comes to are well formed and stand in such blocks. -/
def PlainDirs : Prop := ∀ x, Reach (g.pass1Kids img) rootInodeNum x →
  DirOk g img x ∧ ∀ b ∈ g.dirBlocks img x, g.PlainBlock b

end Places

section Bytes

variable {g : Globals} {clean : Buf} {d : Device}

theorem mem_flipped {k : ℕ} (h : d.image.byte k ≠ clean.byte k) :
    ∃ p ∈ flipped clean d, (p-1)/8 = k := by
  by_contra hno
  simp only [not_exists,not_and] at hno
  refine h (BitVec.eq_of_getLsbD_eq fun j hj => ?_)
  by_contra hne
  refine hno (k*8+j+1) ⟨by omega,?_⟩ (by omega)
  rw [bitAt,bitAt,show (k*8+j+1-1)/8 = k by omega,show (k*8+j+1-1)%8 = j by omega]
  exact hne

theorem place_block (hg : BlockSizes g) {b c k j : ℕ} (hj : j < g.blockSize)
    (hk : g.blockOffset b+j = k) (h : g.blockOffset c ≤ k) (h' : k < g.blockOffset c+g.blockSize) : b = c := by
  by_contra hne
  have := hg.blocks_disjoint hne
  omega

theorem dot_in {img : Buf} {b : ℕ} (h : WellFormedBlock (g.blockAt img b))
    {q : ℕ × DirEntry} (hq : q ∈ dots (entriesOf (g.blockAt img b))) : q.1+8 ≤ g.blockSize := by
  have hin := h.entry_in q (mem_of_dots hq)
  rw [blockAt_size] at hin
  omega

theorem Damaged.plain_place (hl : GroupLayout g) (h : Damaged g clean d) {b : ℕ} (hb : g.PlainBlock b) {j : ℕ}
    (hj : j < g.blockSize) (hne : (g.blockAt d.image b).byte j ≠ (g.blockAt clean b).byte j) :
    ∃ p ∈ flipped clean d, p ∈ g.dotsBelow clean rootInodeNum ∧ (p-1)/8 = g.blockOffset b+j := by
  have hsizes := hl.geometry.sizes
  have hbyte : ∀ img : Buf, (g.blockAt img b).byte j = img.byte (g.blockOffset b+j) :=
    fun img => Buf.slice_byte _ hj
  rw [hbyte,hbyte] at hne
  obtain ⟨p,hp,hk⟩ := mem_flipped hne
  refine ⟨p,hp,?_,hk⟩
  rcases h.places hp with hdot | ⟨i,h1,hi,-,hi'⟩ | ⟨a,ha,r,hr,rfl,-⟩
  · exact hdot
  · have hpos := hl.geometry.tables.inodePos_le i
    simp only [Globals.linkPos,inodeSize] at hi' hpos
    exact absurd (place_block hsizes hj hk.symm (c := g.inodeBlock i) (by omega) (by omega)) (hb.1 i h1 hi)
  · exact absurd (place_block hsizes hj hk.symm (c := g.blockBitmap a) (by omega) (by omega)) (hb.2 a ha)

theorem Damaged.plain_block (hl : GroupLayout g) (hp : PlainDirs g clean) (h : Damaged g clean d) {b : ℕ}
    (hb : g.PlainBlock b) {j : ℕ} (hj : j < g.blockSize)
    (hne : (g.blockAt d.image b).byte j ≠ (g.blockAt clean b).byte j) :
    ∃ q ∈ dots (entriesOf (g.blockAt clean b)), q.1 ≤ j ∧ j < q.1+4 := by
  obtain ⟨p,-,⟨x,hx,c,hc,q,hq,h₁,h₂⟩,hk⟩ := h.plain_place hl hb hj hne
  have hin := dot_in ((hp x hx).1.wellFormed c hc) hq
  obtain rfl := place_block hl.geometry.sizes hj hk.symm (c := c) (by omega) (by omega)
  exact ⟨q,hq,by omega,by omega⟩

theorem inodePos_mod (hg : BlockSizes g) (i : ℕ) : g.inodePos i%inodeSize = 0 := by
  rw [Globals.inodePos,Nat.mod_mod_of_dvd _ (Dvd.dvd.trans (by decide) hg.sector_dvd),Globals.inodeOffset]
  exact Nat.mul_mod_left _ _

theorem GroupLayout.inodeBlock_table (hl : GroupLayout g) {i : ℕ} (h1 : 1 ≤ i)
    (hi : i ≤ g.superBlock.sInodesCount) : g.tableBlock (g.inodeBlock i) := by
  have hlt := hl.geometry.inodeGroup_lt h1 hi
  have hindex := hl.geometry.tables.inodeIndex_lt i
  have hgroup : g.inodeGroup i < g.blockGroups := hlt.trans_le hl.groups_eq
  refine ⟨g.inodeGroup i,hgroup,?_,?_⟩
  · rw [Globals.inodeBlock,hl.inode_table _ hgroup]
    omega
  · rw [Globals.inodeBlock,hl.inode_table _ hgroup]
    omega

theorem GroupLayout.bitmap_place (hl : GroupLayout g) {a : ℕ} (ha : a < g.blockGroups) :
    (g.blockBitmap a-1)%g.superBlock.sBlocksPerGroup = 2 := by
  have hskip := hl.skip_lt
  rw [hl.block_bitmap a ha,Globals.groupStart,show 1+a*g.superBlock.sBlocksPerGroup+2-1 =
    2+a*g.superBlock.sBlocksPerGroup by omega,Nat.add_mul_mod_self_right,Nat.mod_eq_of_lt]
  simp only [Globals.skip] at hskip
  omega

theorem GroupLayout.table_ne_bitmap (hl : GroupLayout g) {a b : ℕ} (ha : a < g.blockGroups)
    (hb : g.tableBlock b) : b ≠ g.blockBitmap a := by
  rintro rfl
  have h₁ := (hl.tableBlock_place hb).1
  rw [hl.bitmap_place ha] at h₁
  omega

theorem GroupLayout.data_plain (hl : GroupLayout g) {b : ℕ} (hb : g.dataBlock b) : g.PlainBlock b := by
  refine ⟨fun i h1 hi he => ?_,fun a ha he => ?_⟩
  · have hplace := (hl.tableBlock_place (hl.inodeBlock_table h1 hi)).2
    rw [← he] at hplace
    exact absurd hb.2.2 (by omega)
  · have hplace := hl.bitmap_place ha
    rw [← he] at hplace
    have hdata := hb.2.2
    simp only [Globals.skip] at hdata
    omega

theorem Damaged.inode (hl : GroupLayout g) (hp : PlainDirs g clean) (h : Damaged g clean d) {i : ℕ}
    (h1 : 1 ≤ i) (hi : i ≤ g.superBlock.sInodesCount) :
    SameButLinks (g.inodeAt clean i) (g.inodeAt d.image i) := by
  have hsizes := hl.geometry.sizes
  have htable := hl.inodeBlock_table h1 hi
  have hagree : Buf.AgreeOff LinkByte (g.blockAt clean (g.inodeBlock i)) (g.blockAt d.image (g.inodeBlock i)) := by
    refine ⟨rfl,fun j hno => ?_⟩
    by_contra hne
    have hj : j < g.blockSize := by
      by_contra hge
      rw [Buf.past_end _ _ (by simpa using hge),Buf.past_end _ _ (by simpa using hge)] at hne
      exact hne rfl
    have hbyte : ∀ img : Buf, (g.blockAt img (g.inodeBlock i)).byte j =
        img.byte (g.blockOffset (g.inodeBlock i)+j) := fun img => Buf.slice_byte _ hj
    rw [hbyte,hbyte] at hne
    obtain ⟨p,hp',hk⟩ := mem_flipped (Ne.symm hne)
    rcases h.places hp' with ⟨x,hx,c,hc,q,hq,h₁,h₂⟩ | ⟨y,hy1,hy,-,hy'⟩ | ⟨a,ha,r,hr,rfl,-⟩
    · have hin := dot_in ((hp x hx).1.wellFormed c hc) hq
      have hplain := ((hp x hx).2 c hc).1 i h1 hi
      exact hplain (place_block hsizes hj hk.symm (c := c) (by omega) (by omega)).symm
    · have hpos := hl.geometry.tables.inodePos_le y
      have hmod := inodePos_mod hsizes y
      simp only [Globals.linkPos,inodeSize] at hy' hpos hmod
      have hsame := place_block hsizes hj hk.symm (c := g.inodeBlock y) (by omega) (by omega)
      rw [← hsame] at hy'
      refine hno ?_
      unfold LinkByte
      simp only [inodeSize]
      omega
    · exact hl.table_ne_bitmap ha htable (place_block hsizes hj hk.symm (c := g.blockBitmap a) (by omega) (by omega))
  have hin : g.inodePos i+inodeSize ≤ g.blockSize := hl.geometry.tables.inodePos_le i
  have hrel := decodeInode_links hagree (inodePos_mod hsizes i)
  rw [decodeInode_eq (by simpa using hin),decodeInode_eq (by simpa using hin)] at hrel
  cases hrel
  assumption

theorem Damaged.entries (hl : GroupLayout g) (hp : PlainDirs g clean) (h : Damaged g clean d) {x b : ℕ}
    (hx : Reach (g.pass1Kids clean) rootInodeNum x) (hb : b ∈ g.dirBlocks clean x) :
    entriesOf (g.blockAt d.image b) = (entriesOf (g.blockAt clean b)).map (renumbered (g.blockAt d.image b)) ∧
      WellFormedBlock (g.blockAt d.image b) ∧
      (∀ q ∈ entriesOf (g.blockAt clean b), q ∉ dots (entriesOf (g.blockAt clean b)) →
        renumbered (g.blockAt d.image b) q = q) := by
  have hwf := (hp x hx).1.wellFormed b hb
  have hdots := fun {j} hj => h.plain_block (j := j) hl hp ((hp x hx).2 b hb) hj
  have hout : ∀ j, g.blockSize ≤ j → (g.blockAt d.image b).byte j = (g.blockAt clean b).byte j :=
    fun j hj => by rw [Buf.past_end _ _ (by simpa using hj),Buf.past_end _ _ (by simpa using hj)]
  have hother : ∀ q ∈ entriesOf (g.blockAt clean b), q ∉ dots (entriesOf (g.blockAt clean b)) →
      num (g.blockAt d.image b).byte q.1 4 = q.2.inode := by
    intro q hq hno
    rw [(hwf.entry_in q hq).2.1]
    refine num_congr fun k hk => ?_
    by_contra hne
    by_cases hj : q.1+k < g.blockSize
    · obtain ⟨q',hq',h₁,h₂⟩ := hdots hj hne
      rcases hwf.places_apart q hq q' (mem_of_dots hq') with he | he | he
      · refine hno ?_
        have hsame : q = q' := Prod.ext he (by
          rw [(hwf.entry_in q hq).2.1,(hwf.entry_in q' (mem_of_dots hq')).2.1,he])
        rwa [hsame]
      · omega
      · omega
    · exact hne (hout _ (by omega))
  have hchain : Chain (g.blockAt d.image b) 0 _ := hwf.renumber rfl (fun j _ hne => by
    by_cases hj : j < g.blockSize
    · obtain ⟨q,hq,hplace⟩ := hdots hj hne
      exact ⟨q,mem_of_dots hq,hplace⟩
    · exact absurd (hout j (by omega)) hne) fun q hq => by
    by_cases hdot : q ∈ dots (entriesOf (g.blockAt clean b))
    · exact h.used x hx b hb q hdot
    · rw [hother q hq hdot]
      exact Nat.ne_of_gt (hwf.inode_pos q hq)
  refine ⟨hchain.wellFormed.1,hchain.wellFormed.2,fun q hq hdot => ?_⟩
  rw [renumbered,hother q hq hdot]

theorem Damaged.fits (h : Damaged g clean d) (hf : g.Fits clean) : g.Fits d.image := by
  unfold Globals.Fits
  rw [h.size_eq]
  exact hf

/-- The bits of the inode number of entry `q` of block `b`. -/
def Globals.numberBits (g : Globals) (b : ℕ) (q : ℕ × DirEntry) : Set ℕ :=
  {p | g.blockOffset b+q.1 ≤ (p-1)/8 ∧ (p-1)/8 < g.blockOffset b+q.1+4}

theorem Damaged.write (hl : GroupLayout g) (hf : g.Fits clean) (hp : PlainDirs g clean)
    (h : Damaged g clean d) {x b : ℕ} (hx : Reach (g.pass1Kids clean) rootInodeNum x)
    (hb : b ∈ g.dirBlocks clean x) {q : ℕ × DirEntry} (hq : q ∈ dots (entriesOf (g.blockAt clean b)))
    (out : List Event) :
    Damaged g clean ⟨g.setBlock d.image b ((g.blockAt d.image b).putNum q.1 q.2.inode 4),out⟩ ∧
      flipped clean ⟨g.setBlock d.image b ((g.blockAt d.image b).putNum q.1 q.2.inode 4),out⟩ ⊆
        flipped clean d \ g.numberBits b q := by
  have hsizes := hl.geometry.sizes
  have hwf := (hp x hx).1.wellFormed b hb
  have hin : q.1+8 ≤ g.blockSize := dot_in hwf hq
  have hnum : num (g.blockAt clean b).byte q.1 4 = q.2.inode := by
    rw [(hwf.entry_in q (mem_of_dots hq)).2.1]
    rfl
  have hsize : ((g.blockAt d.image b).putNum q.1 q.2.inode 4).size = g.blockSize := by simp
  have hself : g.blockAt (g.setBlock d.image b ((g.blockAt d.image b).putNum q.1 q.2.inode 4)) b = _ :=
    blockAt_setBlock_self hsize
  have hfield : ∀ k, g.blockOffset b+q.1 ≤ k → k < g.blockOffset b+q.1+4 →
      (g.setBlock d.image b ((g.blockAt d.image b).putNum q.1 q.2.inode 4)).byte k = clean.byte k := by
    intro k hk hk'
    obtain ⟨j,rfl⟩ := Nat.exists_eq_add_of_le hk
    have hj : j < 4 := by omega
    have hbyte : ∀ img : Buf, img.byte (g.blockOffset b+q.1+j) = (g.blockAt img b).byte (q.1+j) := by
      intro img
      rw [Nat.add_assoc]
      exact (Buf.slice_byte _ (by omega)).symm
    have hclean : (g.blockAt clean b).putNum q.1 q.2.inode 4 = g.blockAt clean b := Buf.putNum_num
      (by rw [blockAt_size]; omega) (by rw [hnum,Nat.mod_eq_of_lt (hnum ▸ num_lt _ _ _)])
    have hput := Buf.putNum_byte_in (b := g.blockAt clean b) (v := q.2.inode) hj
      (show q.1+4 ≤ (g.blockAt clean b).size by rw [blockAt_size]; omega)
    rw [hclean] at hput
    rw [hbyte,hbyte,hself,Buf.putNum_byte_in hj (by rw [blockAt_size]; omega),hput]
  have hrest : ∀ k, ¬ (g.blockOffset b+q.1 ≤ k ∧ k < g.blockOffset b+q.1+4) →
      (g.setBlock d.image b ((g.blockAt d.image b).putNum q.1 q.2.inode 4)).byte k = d.image.byte k :=
    fun k hk => setBlock_byte_eq hsize fun j hj hkj => Buf.putNum_byte_out (by omega)
  have hsub : flipped clean ⟨g.setBlock d.image b ((g.blockAt d.image b).putNum q.1 q.2.inode 4),out⟩ ⊆
      flipped clean d \ g.numberBits b q := by
    rintro p ⟨h1,hne⟩
    unfold bitAt at hne
    by_cases hp' : p ∈ g.numberBits b q
    · exact absurd (by rw [hfield _ hp'.1 hp'.2]) hne
    · refine ⟨⟨h1,?_⟩,hp'⟩
      unfold bitAt
      rwa [← hrest _ hp']
  refine ⟨⟨?_,(hsub.trans Set.sdiff_subset).trans h.places,fun y hy c hc q' hq' => ?_⟩,hsub⟩
  · rw [setBlock_size hsizes (h.fits hf) ((hp x hx).1.blocks_lt b hb) hsize,h.size_eq]
  · have hold := h.used y hy c hc q' hq'
    by_cases hcb : c = b
    · subst hcb
      rw [hself]
      rcases hwf.places_apart q' (mem_of_dots hq') q (mem_of_dots hq) with he | he | he
      · rw [he,Buf.num_putNum (by rw [blockAt_size]; omega),← hnum,Nat.mod_eq_of_lt (num_lt _ _ _),hnum]
        exact Nat.ne_of_gt (hwf.inode_pos q (mem_of_dots hq))
      · rwa [Buf.num_putNum_disjoint (by omega)]
      · rwa [Buf.num_putNum_disjoint (by omega)]
    · rwa [blockAt_setBlock_ne hsizes hsize hcb]

end Bytes

end MyFsck
