import MyFsck.Orphans
import Mathlib.Order.Lattice.Nat

/-! The scan of `pass2` in terms of lists. The counters stand for the names met so far; which inodes
are taken in depends on these alone. As long as only orphans are taken in, the program follows. -/
namespace MyFsck

open ByteBuffer ErrorState Unfolding

/-- The inodes taken in so far, and the names met so far. -/
structure Scan where
  taken : List ℕ
  met : List ℕ

section Defs

variable (g : Globals) (img : Buf)

open Classical in
/-- The directories met on a walk from `x`. -/
noncomputable def Globals.treeOf (x : ℕ) : List ℕ :=
  if h : ∃ l, Unfolds (g.subdirs img) [x] l then h.choose else []

/-- The links `ls` of an orphan directory `x` after the inodes of `A` were taken into the directory
`lost`: the second entry of a directory taken in names `lost`. -/
def linksTaken (lost : Option ℕ) (A : List ℕ) (x : ℕ) (ls : List (List (ℕ × Bool))) :
    List (List (ℕ × Bool)) :=
  match lost with
  | some L => if x ∈ A then setSecond (fun p => (L,p.2)) ls else ls
  | none => ls

def Globals.linksAfter (A : List ℕ) (x : ℕ) : List (List (ℕ × Bool)) :=
  linksTaken (g.lostFound img) A x (g.links img x)

def Globals.namedAfter (A : List ℕ) (x : ℕ) : List ℕ :=
  (g.linksAfter img A x).flatten.map Prod.fst

open Classical in
/-- One turn of the scan: an allocated inode that was not met is taken in, and what its tree names
is met. The counters count modulo 256. -/
noncomputable def Globals.scanStep (s : Scan) (i : ℕ) : Scan :=
  if g.Allocated img i ∧ s.met.count i % 256 = 0 then
    ⟨s.taken++[i],s.met ++ if inodeIsDir (g.inodeAt img i) = true then
      (g.treeOf img i).flatMap (g.namedAfter img s.taken) else []⟩
  else s

/-- The scan before it comes to inode `i`. -/
noncomputable def Globals.scanTo : ℕ → Scan
  | 0 => ⟨[],g.counted img (g.treeOf img rootInodeNum)⟩
  | i+1 => g.scanStep img (Globals.scanTo i) i

end Defs

section Lists

variable {g : Globals} {img : Buf}

theorem treeOf_unfolds {x : ℕ} (h : ∃ l, Unfolds (g.subdirs img) [x] l) :
    Unfolds (g.subdirs img) [x] (g.treeOf img x) := by
  rw [Globals.treeOf,dif_pos h]
  exact h.choose_spec

theorem scanTo_taken {i : ℕ} (h : g.Allocated img i) (h0 : (g.scanTo img i).met.count i % 256 = 0) :
    g.scanTo img (i+1) = ⟨(g.scanTo img i).taken++[i],(g.scanTo img i).met ++
      if inodeIsDir (g.inodeAt img i) = true then
        (g.treeOf img i).flatMap (g.namedAfter img (g.scanTo img i).taken) else []⟩ :=
  if_pos ⟨h,h0⟩

theorem scanTo_skipped {i : ℕ}
    (h : ¬ (g.Allocated img i ∧ (g.scanTo img i).met.count i % 256 = 0)) :
    g.scanTo img (i+1) = g.scanTo img i := if_neg h

theorem scanTo_one : g.scanTo img 1 = ⟨[],g.counted img (g.treeOf img rootInodeNum)⟩ :=
  scanTo_skipped fun h => absurd h.1.1 (by norm_num)

theorem taken_mono {i j : ℕ} (h : i ≤ j) : (g.scanTo img i).taken <+: (g.scanTo img j).taken := by
  induction j, h using Nat.le_induction with
  | base => exact List.prefix_rfl
  | succ j _ ih =>
    refine ih.trans ?_
    by_cases hj : g.Allocated img j ∧ (g.scanTo img j).met.count j % 256 = 0
    · rw [scanTo_taken hj.1 hj.2]
      exact List.prefix_append _ _
    · rw [scanTo_skipped hj]

theorem mem_scanTo {a i : ℕ} : a ∈ (g.scanTo img i).taken ↔
    a < i ∧ g.Allocated img a ∧ (g.scanTo img a).met.count a % 256 = 0 := by
  induction i with
  | zero => simp [Globals.scanTo]
  | succ i ih =>
    by_cases hi : g.Allocated img i ∧ (g.scanTo img i).met.count i % 256 = 0
    · rw [scanTo_taken hi.1 hi.2,List.mem_append,ih,List.mem_singleton]
      constructor
      · rintro (h | rfl)
        · exact ⟨by omega,h.2⟩
        · exact ⟨by omega,hi⟩
      · intro h
        by_cases hai : a = i
        · exact Or.inr hai
        · exact Or.inl ⟨by omega,h.2⟩
    · rw [scanTo_skipped hi,ih]
      constructor
      · exact fun h => ⟨by omega,h.2⟩
      · intro h
        have hai : a ≠ i := by
          rintro rfl
          exact hi h.2
        exact ⟨by omega,h.2⟩

theorem scanTo_nodup (i : ℕ) : (g.scanTo img i).taken.Nodup := by
  induction i with
  | zero => exact List.nodup_nil
  | succ i ih =>
    by_cases hi : g.Allocated img i ∧ (g.scanTo img i).met.count i % 256 = 0
    · rw [scanTo_taken hi.1 hi.2]
      have hni : i ∉ (g.scanTo img i).taken := fun h => absurd (mem_scanTo.mp h).1 (Nat.lt_irrefl i)
      simpa using ih.concat hni
    · rw [scanTo_skipped hi]
      exact ih

end Lists

section Follow

variable {g : Globals} {img : Buf}

theorem linksAfter_none (h : g.lostFound img = none) (A : List ℕ) (x : ℕ) :
    g.linksAfter img A x = g.links img x := by
  rw [Globals.linksAfter,h]
  rfl

theorem linksAfter_mem {L : ℕ} (h : g.lostFound img = some L) {A : List ℕ} {x : ℕ} (hx : x ∈ A) :
    g.linksAfter img A x = setSecond (fun p => (L,p.2)) (g.links img x) := by
  rw [Globals.linksAfter,h]
  exact if_pos hx

theorem linksAfter_not_mem {A : List ℕ} {x : ℕ} (hx : x ∉ A) :
    g.linksAfter img A x = g.links img x := by
  cases h : g.lostFound img with
  | none => exact linksAfter_none h A x
  | some L =>
    rw [Globals.linksAfter,h]
    exact if_neg hx

theorem dropDots_linksAfter (A : List ℕ) (x : ℕ) :
    dropDots (g.linksAfter img A x) = dropDots (g.links img x) := by
  cases h : g.lostFound img with
  | none => rw [linksAfter_none h]
  | some L =>
    by_cases hx : x ∈ A
    · rw [linksAfter_mem h hx,dropDots_setSecond]
    · rw [linksAfter_not_mem hx]

theorem TakenIn.orphan_dir (hg : Geometry g) (h : OrphanForest g img) {A : List ℕ} {img' : Buf}
    (ht : TakenIn g img A img') (hA : ∀ a ∈ A, g.Orphan img a) {x : ℕ} (hx : g.OrphanDir img x) :
    g.dirBlocks img' x = g.dirBlocks img x ∧ g.links img' x = g.linksAfter img A x ∧
      DirOk g img' x := by
  have hxL : g.lostFound img ≠ some x := fun hL =>
    not_orphan_of_reach (h.lostFound x hL).reach hx.1
  have hsame : (∀ L, g.lostFound img = some L → x ∉ A) → g.dirBlocks img' x = g.dirBlocks img x ∧
      g.links img' x = g.links img x ∧ DirOk g img' x := by
    intro hxA
    obtain ⟨h₁,h₂,h₃⟩ := ht.dir_same h hA (Or.inr hx) hxA hxL
    exact ⟨h₁,by rw [Globals.links,h₂,Globals.links],h₃⟩
  cases hL : g.lostFound img with
  | none =>
    rw [linksAfter_none hL]
    exact hsame fun L hL' => by simp [hL] at hL'
  | some L =>
    by_cases hxA : x ∈ A
    · rw [linksAfter_mem hL hxA]
      exact ht.dir_taken hg h hA hx hxA hL
    · rw [linksAfter_not_mem hxA]
      exact hsame fun _ _ => hxA

theorem TakenIn.orphan_subdirs (hg : Geometry g) (h : OrphanForest g img) {A : List ℕ} {img' : Buf}
    (ht : TakenIn g img A img') (hA : ∀ a ∈ A, g.Orphan img a) {x : ℕ} (hx : g.OrphanDir img x) :
    g.subdirs img' x = g.subdirs img x := by
  rw [subdirs_links,(ht.orphan_dir hg h hA hx).2.1,dropDots_linksAfter,← subdirs_links]

theorem TakenIn.traverse (hg : Geometry g) (h : OrphanForest g img) {A : List ℕ} {d : Device}
    (ht : TakenIn g img A d.image) (hA : ∀ a ∈ A, g.Orphan img a) {x : ℕ} (hx : g.OrphanDir img x)
    {fuel : ℕ} (hfuel : (g.treeOf img x).length ≤ fuel) {counts : Buf}
    (hc : counts.size = g.superBlock.sInodesCount+1) : (directoryTraversor g fuel counts x).run d =
      .ok (addCounts counts ((g.treeOf img x).flatMap (g.namedAfter img A))) d := by
  have hu := treeOf_unfolds (h.unfolds hx)
  have horphan : ∀ y ∈ g.treeOf img x, g.OrphanDir img y := fun y hy =>
    h.reach_orphan hx (hu.mem_iff.mp hy)
  have hu' : Unfolds (g.subdirs d.image) [x] (g.treeOf img x) :=
    hu.congr fun y hy => ht.orphan_subdirs hg h hA (horphan y hy)
  have hcounted : g.counted d.image (g.treeOf img x) =
      (g.treeOf img x).flatMap (g.namedAfter img A) := by
    refine List.flatMap_congr fun y hy => ?_
    rw [named_links,(ht.orphan_dir hg h hA (horphan y hy)).2.1,Globals.namedAfter]
  rw [← hcounted]
  exact directoryTraversor_run hg ht.fits hu' (fun y hy => (ht.orphan_dir hg h hA (horphan y hy)).2.2)
    fuel hfuel counts hc

/-- The state of the loop of `pass2` before inode `i`. -/
structure ScanInv (g : Globals) (img : Buf) (i : ℕ) (counts : Buf) (d : Device) : Prop where
  takenIn : TakenIn g img (g.scanTo img i).taken d.image
  reported_eq : reported d.out = (g.scanTo img i).taken
  size_eq : counts.size = g.superBlock.sInodesCount+1
  byte_eq : ∀ j, j ≤ g.superBlock.sInodesCount →
    counts.byte j = BitVec.ofNat 8 ((g.scanTo img i).met.count j)

theorem ofNat_eq_zero_iff (n : ℕ) : BitVec.ofNat 8 n = 0 ↔ n % 256 = 0 := by
  rw [← BitVec.toNat_inj]
  simp

theorem ScanInv.step (hl : GroupLayout g) (h : OrphanForest g img) {i : ℕ} (h1 : 1 ≤ i)
    (hi : i ≤ g.superBlock.sInodesCount) {counts : Buf} {d : Device} (hinv : ScanInv g img i counts d)
    (hA : ∀ a ∈ (g.scanTo img (i+1)).taken, g.Orphan img a) {fuel : ℕ}
    (hfuel : (g.treeOf img i).length ≤ fuel) : ∃ counts' d',
      (pass2Step g fuel (g.inodeFlat img) counts i).run d = .ok counts' d' ∧
      ScanInv g img (i+1) counts' d' := by
  have hg := hl.geometry
  have hbs : g.blockSize < 2^16 := by
    rw [hl.block_size]
    norm_num
  have hzero : counts.byte i = 0 ↔ (g.scanTo img i).met.count i % 256 = 0 := by
    rw [hinv.byte_eq i hi,ofNat_eq_zero_iff]
  by_cases hstep : g.Allocated img i ∧ (g.scanTo img i).met.count i % 256 = 0
  · have hnext := scanTo_taken hstep.1 hstep.2
    have hA' : ∀ a ∈ (g.scanTo img i).taken, g.Orphan img a := fun a ha =>
      hA a ((taken_mono (Nat.le_succ i)).subset ha)
    have horphan : g.Orphan img i := hA i (by rw [hnext]; simp)
    obtain ⟨d₁,hd₁⟩ : ∃ d₁ : Device, d₁ = ⟨d.image,d.out++[Event.unreferencedInode i]⟩ := ⟨_,rfl⟩
    have htaken₁ : TakenIn g img (g.scanTo img i).taken d₁.image := by
      rw [hd₁]
      exact hinv.takenIn
    obtain ⟨counts',hwalk,hsize,hbyte⟩ : ∃ counts', (if inodeIsDir (g.inodeAt img i) = true then
        directoryTraversor g fuel counts i else pure counts : Fsck Buf).run d₁ = .ok counts' d₁ ∧
        counts'.size = g.superBlock.sInodesCount+1 ∧ ∀ j, j ≤ g.superBlock.sInodesCount →
          counts'.byte j = BitVec.ofNat 8 ((g.scanTo img (i+1)).met.count j) := by
      rw [hnext]
      by_cases hdir : inodeIsDir (g.inodeAt img i) = true
      · rw [if_pos hdir,if_pos hdir]
        refine ⟨_,htaken₁.traverse hg h hA' ⟨horphan,hdir⟩ hfuel hinv.size_eq,?_,fun j hj => ?_⟩
        · rw [addCounts_size,hinv.size_eq]
        · rw [addCounts_byte _ (by rw [hinv.size_eq]; omega),hinv.byte_eq j hj,List.count_append,
            BitVec.ofNat_add]
      · rw [if_neg hdir,if_neg hdir]
        refine ⟨counts,rfl,hinv.size_eq,fun j hj => ?_⟩
        rw [List.append_nil,hinv.byte_eq j hj]
    obtain ⟨r,d₂,hadd,htaken₂,hrep⟩ := htaken₁.adopt hg hbs h hA' horphan
    refine ⟨counts',d₂,?_,?_,?_,hsize,hbyte⟩
    · rw [pass2Step_take hl hinv.takenIn hstep.1 hinv.size_eq (hzero.mpr hstep.2),← hd₁,
        bind_ok hwalk,bind_ok hadd]
      rfl
    · rw [hnext]
      exact htaken₂
    · rw [hrep,hd₁,reported_append,hinv.reported_eq,hnext]
      rfl
  · have hnext := scanTo_skipped hstep
    refine ⟨counts,d,pass2Step_skip hl hinv.takenIn h1 hi hinv.size_eq (fun hal h0 => ?_) fuel,?_⟩
    · exact hstep ⟨hal,hzero.mp h0⟩
    · refine ⟨?_,?_,hinv.size_eq,?_⟩ <;> rw [hnext]
      · exact hinv.takenIn
      · exact hinv.reported_eq
      · exact hinv.byte_eq

/-- Fuel enough for every walk of the scan. -/
noncomputable def Globals.scanFuel (g : Globals) (img : Buf) : ℕ :=
  (Finset.range (g.superBlock.sInodesCount+1)).sup fun i => (g.treeOf img i).length

theorem treeOf_length_le {i : ℕ} (hi : i ≤ g.superBlock.sInodesCount) :
    (g.treeOf img i).length ≤ g.scanFuel img :=
  Finset.le_sup (f := fun i => (g.treeOf img i).length) (Finset.mem_range.mpr (by omega))

theorem scan_run (hl : GroupLayout g) (h : OrphanForest g img) {k : ℕ}
    (hk : k ≤ g.superBlock.sInodesCount) (hA : ∀ a ∈ (g.scanTo img (k+1)).taken, g.Orphan img a)
    {fuel : ℕ} (hfuel : g.scanFuel img ≤ fuel) {counts : Buf} {d : Device}
    (hinv : ScanInv g img 1 counts d) : ∃ counts' d',
      ((List.range' 1 k).foldlM (pass2Step g fuel (g.inodeFlat img)) counts).run d = .ok counts' d' ∧
      ScanInv g img (k+1) counts' d' := by
  rw [Nat.add_comm k 1] at hA ⊢
  refine foldlM_range'_inv (ScanInv g img) (fun i counts d h1 hi hinv => ?_) hinv
  exact hinv.step hl h h1 (by omega)
    (fun a ha => hA a ((taken_mono (Nat.succ_le_of_lt hi)).subset ha))
    ((treeOf_length_le (by omega)).trans hfuel)

theorem pass2_loop (hl : GroupLayout g) (hf : g.Fits img) (h : OrphanForest g img) {fuel : ℕ}
    (hfuel : g.scanFuel img ≤ fuel) : ∃ counts, ScanInv g img 1 counts ⟨img,[]⟩ ∧
      ∀ d : Device, d = ⟨img,[]⟩ → (pass2 g fuel).run d =
        ((List.range' 1 g.superBlock.sInodesCount).foldlM (pass2Step g fuel (g.inodeFlat img)) counts
          >>= fun _ => pure ()).run d := by
  have hg := hl.geometry
  obtain ⟨ds,hds,hok⟩ := h.tree.unfolds
  have hu := treeOf_unfolds ⟨ds,hds⟩
  have hok' : ∀ y ∈ g.treeOf img rootInodeNum, DirOk g img y := fun y hy =>
    h.tree.dirs y (hu.mem_iff.mp hy)
  have hroot := h.tree.dirs rootInodeNum .refl
  have hlen := (@treeOf_length_le g img _ hroot.num_le).trans hfuel
  refine ⟨addCounts (Buf.zero (g.superBlock.sInodesCount+1)) (g.counted img (g.treeOf img rootInodeNum)),
    ?_,fun d hd => ?_⟩
  · refine ⟨?_,?_,rfl,fun j hj => ?_⟩
    · rw [scanTo_one]
      exact .refl hf h
    · rw [scanTo_one]
      rfl
    · rw [scanTo_one]
      exact addCounts_zero_byte _ (by omega)
  subst hd
  have hwalk := @directoryTraversor_run g hg ⟨img,[]⟩ hf _ _ hu hok' fuel hlen
    (Buf.zero (g.superBlock.sInodesCount+1)) rfl
  unfold pass2
  rw [calloc_inodes hg,bind_ok hwalk,bind_ok (getInodeBitmapInPartition_run hl hf)]

theorem pass2_run (hl : GroupLayout g) (hf : g.Fits img) (h : OrphanForest g img)
    (hA : ∀ a ∈ (g.scanTo img (g.superBlock.sInodesCount+1)).taken, g.Orphan img a) {fuel : ℕ}
    (hfuel : g.scanFuel img ≤ fuel) : ∃ d', (pass2 g fuel).run ⟨img,[]⟩ = .ok () d' ∧
      TakenIn g img (g.scanTo img (g.superBlock.sInodesCount+1)).taken d'.image ∧
      reported d'.out = (g.scanTo img (g.superBlock.sInodesCount+1)).taken := by
  obtain ⟨counts,hinv,hrun⟩ := pass2_loop hl hf h hfuel
  obtain ⟨counts',d',hloop,hinv'⟩ := scan_run hl h le_rfl hA hfuel hinv
  refine ⟨d',?_,hinv'.takenIn,hinv'.reported_eq⟩
  rw [hrun _ rfl,bind_ok hloop]
  rfl

theorem pass2_reported (hl : GroupLayout g) (hf : g.Fits img) (h : OrphanForest g img) {k : ℕ}
    (hk : g.Allocated img k) (h0 : (g.scanTo img k).met.count k % 256 = 0)
    (hA : ∀ a ∈ (g.scanTo img k).taken, g.Orphan img a) {fuel : ℕ}
    (hfuel : g.scanFuel img ≤ fuel) : k ∈ reported (endState (pass2 g fuel) ⟨img,[]⟩).out := by
  obtain ⟨h1,hle,hlinks,hbit⟩ := hk
  obtain ⟨counts,hinv,hrun⟩ := pass2_loop hl hf h hfuel
  obtain ⟨m,rfl⟩ : ∃ m, k = m+1 := ⟨k-1,by omega⟩
  obtain ⟨counts',d',hloop,hinv'⟩ := scan_run hl h (by omega) hA hfuel hinv
  obtain ⟨rest,hsplit⟩ := range'_split hle
  have hzero : counts'.byte (m+1) = 0 := by
    rw [hinv'.byte_eq (m+1) hle,ofNat_eq_zero_iff]
    exact h0
  have htake := pass2Step_take hl hinv'.takenIn ⟨h1,hle,hlinks,hbit⟩ hinv'.size_eq hzero fuel
  have hend := endState_congr (hrun _ rfl)
  rw [hsplit,List.foldlM_append,bind_assoc,endState_bind hloop,List.foldlM_cons,
    endState_congr (bind_congr_run (bind_congr_run htake))] at hend
  have hkeeps := (((takeIn_keepsLog (g := g) fuel counts' (m+1) (inodeIsDir (g.inodeAt img (m+1)))).bind
    fun counts => KeepsLog.foldlM (pass2Step_keepsLog (g := g) fuel (g.inodeFlat img)) rest counts).bind
      fun _ => KeepsLog.of_readOnly (.pure ())) (d'.out++[Event.unreferencedInode (m+1)])
  have hpre := hkeeps.endState (s := ⟨d'.image,d'.out++[Event.unreferencedInode (m+1)]⟩) List.prefix_rfl
  rw [← hend] at hpre
  obtain ⟨more,hmore⟩ := hpre
  rw [← hmore,reported_append,reported_append]
  simp [reported]

end Follow

end MyFsck
