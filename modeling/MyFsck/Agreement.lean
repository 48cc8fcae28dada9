import MyFsck.WalksEnd

/-! Where the three walkers agree. Two of them go by the type byte of an entry, one by the mode of
the inode it names, so that they expand the same directories only where the two fit. -/
namespace MyFsck

open ByteBuffer ErrorState Unfolding Tour

section Agree

variable (g : Globals) (img : Buf)

/-- The inodes of mode directory that are reached from the root. -/
def Globals.DirReached (x : ℕ) : Prop :=
  inodeIsDir (g.inodeAt img rootInodeNum) = true ∧ g.InTree img x

/-- The directories reached are well formed and make no cycle. -/
structure ReachedOk : Prop where
  root_le : rootInodeNum ≤ g.superBlock.sInodesCount
  dir : ∀ x, g.DirReached img x → FormedDir g img x ∧ OffTable g img x
  acyclic : ∀ x, g.DirReached img x → ¬ Relation.TransGen (fun a b => b ∈ g.dirsBelow img a) x x

/-- From the image the run ends well, and the inodes it expands are the directories reached. -/
def Globals.Expands {τ : Type} (c : Fsck τ) : Prop :=
  ∃ t d', c.run ⟨img,[]⟩ = .ok t d' ∧ ∀ y, y ∈ expanded d'.out ↔ g.DirReached img y

/-- The three walks from the root, at depth `fuel`. -/
structure WalkersAgree (fuel : ℕ) : Prop where
  pass1 : g.Expands img (pass1Noted g written fuel rootInodeNum rootInodeNum)
  traversor : g.Expands img
    (traversorNoted g written fuel (calloc (g.superBlock.sInodesCount+1)) rootInodeNum)
  bitmap : g.Expands img
    (bitmapNoted g written fuel (calloc (g.superBlock.sBlocksCount+1)) rootInodeNum)

/-- The types of the entries fit the modes of the inodes. The root is a directory; an entry in front of
the first unused one of its block, the dots left out, names a directory if its type says so, and
otherwise a directory, a link, or a file at which the marking does not stop; and every other
directory reached is named by such an entry of type directory that is not among the first two of its
block. -/
structure TypesFit : Prop where
  root : inodeIsDir (g.inodeAt img rootInodeNum) = true
  types : ∀ x, g.DirReached img x → ∀ k ∈ g.subdirs img x, inodeIsDir (g.inodeAt img k) = true
  met : ∀ y, g.DirReached img y → y ≠ rootInodeNum → ∃ x, g.DirReached img x ∧ y ∈ g.pass1Kids img x
  modes : ∀ x, g.DirReached img x → ∀ e ∈ g.nonDot img x, g.entered img e.inode = true →
    inodeIsDir (g.inodeAt img e.inode) = true
  files : ∀ x, g.DirReached img x → ∀ e ∈ g.nonDot img x,
    inodeIsReg (g.inodeAt img e.inode) = true → ¬ StopsAt g img (g.inodeAt img e.inode)

end Agree

section Reached

variable {g : Globals} {img : Buf} {x k : ℕ}

theorem Globals.DirReached.isDir (h : g.DirReached img x) : inodeIsDir (g.inodeAt img x) = true := by
  obtain ⟨hroot,hr⟩ := h
  induction hr with
  | refl => exact hroot
  | tail _ hk _ => exact (List.mem_filter.mp hk).2

theorem Globals.DirReached.tail (h : g.DirReached img x) (hk : k ∈ g.dirsBelow img x) :
    g.DirReached img k := ⟨h.1,h.2.tail hk⟩

theorem FormedDir.nonDot_below (h : FormedDir g img x) {e : DirEntry} (he : e ∈ g.nonDot img x)
    (hd : inodeIsDir (g.inodeAt img e.inode) = true) : e.inode ∈ g.dirsBelow img x :=
  List.mem_filter.mpr ⟨List.mem_map_of_mem (h.nonDot_sublist.subset he),hd⟩

theorem FormedDir.subdirs_below (h : FormedDir g img x) (hk : k ∈ g.subdirs img x)
    (hd : inodeIsDir (g.inodeAt img k) = true) : k ∈ g.dirsBelow img x := by
  obtain ⟨e,he,rfl⟩ := List.mem_map.mp hk
  exact h.nonDot_below (List.mem_filter.mp he).1 hd

theorem entered_of_dir (h : inodeIsDir (g.inodeAt img x) = true) : g.entered img x = true := by
  obtain ⟨hlnk,hreg⟩ := dir_not_lnk_reg h
  simp [Globals.entered,hlnk,hreg]

theorem walkKids_of_entered (h : g.entered img x = true) :
    g.walkKids img x = (g.nonDot img x).map DirEntry.inode := by
  unfold Globals.entered at h
  unfold Globals.walkKids
  rw [if_neg (by simpa using h)]

theorem walkKids_of_not_entered (h : g.entered img x = false) : g.walkKids img x = [] := by
  unfold Globals.entered at h
  unfold Globals.walkKids
  rw [Bool.not_eq_false'] at h
  rw [if_pos h]

theorem walkOk_of_not_entered (h : g.entered img x = false) (h1 : 1 ≤ x)
    (hx : x ≤ g.superBlock.sInodesCount) : WalkOk g img x := by
  refine ⟨h1,hx,fun hlnk hreg => ?_⟩
  simp [Globals.entered,hlnk,hreg] at h

theorem ReachedOk.named (h : ReachedOk g img) (hx : g.DirReached img x) (hk : k ∈ g.named img x) :
    1 ≤ k ∧ k ≤ g.superBlock.sInodesCount :=
  ⟨(h.dir x hx).1.dirOk.named_pos k hk,(h.dir x hx).1.dirOk.named_le k hk⟩

theorem ReachedOk.dirOk (h : ReachedOk g img) (hx : g.DirReached img x) : DirOk g img x ∧ OffTable g img x :=
  ⟨(h.dir x hx).1.dirOk,(h.dir x hx).2⟩

theorem Tour.Walked.unfolds {σ τ : Type} {w : Tour} {P : σ → Device → Prop} {Q : τ → Device → Prop}
    {ws : List ℕ} {c : σ → Fsck τ} (h : w.Walked P ws c Q) {s : σ} {t : τ} {d d' : Device} (hs : P s d)
    (hr : (c s).run d = .ok t d') (hfine : ∀ y ∈ expanded d'.out, w.fine y) :
    ∃ l, Unfolds w.kids ws l ∧ expanded d'.out = expanded d.out ++ l.filter w.shown := by
  rcases h s d hs with ⟨l,t',e,hu,hr',_,hout⟩ | ⟨y,hy,hno⟩ | ⟨_,_,_,hr'⟩
  · rw [hr] at hr'
    cases hr'
    exact ⟨l,hu,hout⟩
  · rw [endState_ok hr] at hy
    exact absurd (hfine y hy) hno
  · rw [hr] at hr'
    cases hr'

theorem Tour.Walked.runs {σ τ : Type} {w : Tour} {P : σ → Device → Prop} {Q : τ → Device → Prop}
    {ws l : List ℕ} {c : σ → Fsck τ} (h : w.Walked P ws c Q) {s : σ} {d : Device} (hs : P s d)
    (hl : Unfolds w.kids ws l) (hfine : ∀ y, w.fine y) (hstops : ∀ e, ¬ w.stops e) :
    ∃ t d', (c s).run d = .ok t d' ∧ expanded d'.out = expanded d.out ++ l.filter w.shown := by
  rcases h s d hs with ⟨l',t',e,hu,hr',_,hout⟩ | ⟨y,_,hno⟩ | ⟨e,_,he,_⟩
  · rw [hu.functional hl] at hout
    exact ⟨t',e,hr',hout⟩
  · exact absurd (hfine y) hno
  · exact absurd he (hstops e)

end Reached

section Expands

variable {g : Globals} {img : Buf} {fuel : ℕ}

theorem traversor_expands (hg : Geometry g) (hf : g.Fits img) (h : ReachedOk g img)
    (hr : g.Expands img
      (traversorNoted g written fuel (calloc (g.superBlock.sInodesCount+1)) rootInodeNum)) :
    ∃ l, Unfolds (g.subdirs img) [rootInodeNum] l ∧ ∀ y, y ∈ l ↔ g.DirReached img y := by
  obtain ⟨t,d',hrun,hall⟩ := hr
  let w : Tour := ⟨g.subdirs img,fun _ => true,g.DirReached img,fun _ => True⟩
  have hwalk : w.Walked (Counting g img) [rootInodeNum]
      (fun c => traversorNoted g written fuel c rootInodeNum) (Counting g img) := by
    refine traversorNoted_walked hg hf written_keepsLog
      (X := fun y => 1 ≤ y ∧ y ≤ g.superBlock.sInodesCount) (fun y hy => ?_) fuel ⟨by decide,h.root_le⟩
      (Or.inl trivial)
    by_cases hd : g.DirReached img y
    · exact Or.inl ⟨notes_written rfl,(h.dirOk hd).1,rfl,fun k hk => h.named hd (subdirs_named hk)⟩
    · exact Or.inr ⟨rfl,hd,hy.1,hy.2⟩
  obtain ⟨l,hl,hout⟩ := hwalk.unfolds ⟨by rw [calloc_inodes hg]; rfl,rfl⟩ hrun fun y hy => (hall y).mp hy
  refine ⟨l,hl,fun y => ?_⟩
  rw [← hall y,hout]
  simp [w]

theorem pass1_expands (hg : Geometry g) (hf : g.Fits img) (h : ReachedOk g img)
    (hr : g.Expands img (pass1Noted g written fuel rootInodeNum rootInodeNum)) :
    ∃ l, Unfolds (g.pass1Kids img) [rootInodeNum] l ∧ ∀ y, y ∈ l ↔ g.DirReached img y := by
  obtain ⟨t,d',hrun,hall⟩ := hr
  let w : Tour := ⟨g.pass1Kids img,fun _ => true,g.DirReached img,fun _ => True⟩
  have hwalk : w.Walked (fun (_ : Unit) d => DotsChanged g (g.DirReached img) img d.image)
      [rootInodeNum] (fun _ => pass1Noted g written fuel rootInodeNum rootInodeNum)
      fun _ d => DotsChanged g (g.DirReached img) img d.image := by
    refine pass1Noted_walked hg hf written_keepsLog (fun _ => h.dirOk)
      (Y := fun y => 1 ≤ y ∧ y ≤ g.superBlock.sInodesCount) (fun y hy => ?_) fuel
      (by unfold Numbers; decide) ⟨by decide,h.root_le⟩ (Or.inl trivial)
    by_cases hd : g.DirReached img y
    · exact Or.inl ⟨hd,notes_written rfl,rfl,
        fun k hk => h.named hd (subdirs_named (pass1Kids_subdirs hk))⟩
    · exact Or.inr ⟨rfl,hd,hy.1,hy.2⟩
  obtain ⟨l,hl,hout⟩ := hwalk.unfolds (s := ()) (.refl fun y hy => (h.dirOk hy).1) hrun
    fun y hy => (hall y).mp hy
  refine ⟨l,hl,fun y => ?_⟩
  rw [← hall y,hout]
  simp [w]

open Classical in
/-- The kids of the walk of `get_true_block_bitmap`, with a cycle at each file at which it stops. -/
noncomputable def Globals.barredKids (g : Globals) (img : Buf) (x : ℕ) : List ℕ :=
  if inodeIsReg (g.inodeAt img x) = true ∧ StopsAt g img (g.inodeAt img x) then [x]
  else g.walkKids img x

theorem calloc_marks (hg : Geometry g) (hbs : 1024 ≤ g.blockSize) :
    Marks (g.superBlock.sBlocksCount+1) (calloc (g.superBlock.sBlocksCount+1)) := by
  have hlt := hg.sectors_lt
  have h₂ : 2 ≤ g.blockSize/sectorSizeBytes := (Nat.le_div_iff_mul_le (by decide)).mpr hbs
  have hmul := Nat.mul_le_mul_left g.superBlock.sBlocksCount h₂
  have h := Marks.calloc (g.superBlock.sBlocksCount+1)
  rwa [u32_eq (by omega)] at h

theorem bitmap_expands (hg : Geometry g) (hbs : 1024 ≤ g.blockSize) (hf : g.Fits img) (h : ReachedOk g img)
    (hr : g.Expands img
      (bitmapNoted g written fuel (calloc (g.superBlock.sBlocksCount+1)) rootInodeNum)) :
    ∃ l, Unfolds (g.walkKids img) [rootInodeNum] l ∧
      (∀ y, y ∈ l.filter (g.entered img) ↔ g.DirReached img y) ∧
      ∀ y ∈ l, inodeIsReg (g.inodeAt img y) = true → ¬ StopsAt g img (g.inodeAt img y) := by
  obtain ⟨t,d',hrun,hall⟩ := hr
  let w : Tour := ⟨g.barredKids img,g.entered img,g.DirReached img,fun _ => True⟩
  have hwalk : w.Walked (Mapping g img) [rootInodeNum]
      (fun c => bitmapNoted g written fuel c rootInodeNum) (Mapping g img) := by
    refine bitmapNoted_walked hg hf written_keepsLog
      (X := fun y => 1 ≤ y ∧ y ≤ g.superBlock.sInodesCount) (fun y hy => ?_) fuel ⟨by decide,h.root_le⟩
      (Or.inl trivial)
    by_cases hd : g.DirReached img y
    · have hent := entered_of_dir hd.isDir
      have hreg := (dir_not_lnk_reg hd.isDir).2
      refine Or.inl ⟨fun hs => notes_written hs,id,⟨hy.1,hy.2,fun _ _ => (h.dirOk hd).1⟩,
        by simp [w,Globals.barredKids,hreg],fun _ _ _ _ => trivial,fun k hk => ?_⟩
      rw [walkKids_of_entered hent] at hk
      obtain ⟨e,he,rfl⟩ := List.mem_map.mp hk
      exact h.named hd (nonDot_named he)
    · cases hent : g.entered img y with
      | true => exact Or.inr (Or.inl ⟨rfl,rfl,hd,hy.1,hy.2⟩)
      | false =>
        have hok := walkOk_of_not_entered hent hy.1 hy.2
        by_cases hbar : inodeIsReg (g.inodeAt img y) = true ∧ StopsAt g img (g.inodeAt img y)
        · exact Or.inr (Or.inr ⟨hok,hbar.1,hbar.2,fun _ _ => trivial⟩)
        · refine Or.inl ⟨fun hs => by simp at hs,fun _ => hent,hok,
            by simp only [w,Globals.barredKids,if_neg hbar],fun _ _ _ _ => trivial,fun k hk => ?_⟩
          rw [walkKids_of_not_entered hent] at hk
          cases hk
  obtain ⟨l,hl,hout⟩ := hwalk.unfolds (s := calloc (g.superBlock.sBlocksCount+1)) ⟨rfl,calloc_marks hg hbs⟩
    hrun fun y hy => (hall y).mp hy
  have hbar : ∀ y ∈ l, ¬ (inodeIsReg (g.inodeAt img y) = true ∧ StopsAt g img (g.inodeAt img y)) := by
    intro y hy hbar
    refine hl.acyclic y (hl.mem_iff.mp hy) (.single ?_)
    simp [w,Globals.barredKids,hbar]
  refine ⟨l,hl.congr fun y hy => by simp only [w,Globals.barredKids,if_neg (hbar y hy)],fun y => ?_,
    fun y hy hreg hst => hbar y hy ⟨hreg,hst⟩⟩
  rw [← hall y,hout]
  simp [w]

end Expands

section Fit

variable {g : Globals} {img : Buf}

theorem ReachedOk.acyclic_from_root (h : ReachedOk g img)
    (hroot : inodeIsDir (g.inodeAt img rootInodeNum) = true) :
    Acyclic (g.dirsBelow img) rootInodeNum := fun y hy => h.acyclic y ⟨hroot,hy⟩

theorem ReachedOk.finite (h : ReachedOk g img)
    (hroot : inodeIsDir (g.inodeAt img rootInodeNum) = true) :
    {y | Reach (g.dirsBelow img) rootInodeNum y}.Finite :=
  reach_finite fun y hy => (h.dir y ⟨hroot,hy⟩).1.num_le

theorem TypesFit.reach_pass1 (ht : TypesFit g img) (h : ReachedOk g img) {y : ℕ}
    (hy : g.DirReached img y) : Reach (g.pass1Kids img) rootInodeNum y := by
  refine (h.acyclic_from_root ht.root).induction_down (h.finite ht.root) (fun y hy ih => ?_) hy.2
  by_cases hne : y = rootInodeNum
  · rw [hne]
    exact .refl
  · obtain ⟨x,hx,hk⟩ := ht.met y ⟨ht.root,hy⟩ hne
    have hdir := (show g.DirReached img y from ⟨ht.root,hy⟩).isDir
    exact (ih x hx.2 ((h.dir x hx).1.subdirs_below (pass1Kids_subdirs hk) hdir)).tail hk

theorem TypesFit.reached (ht : TypesFit g img) (h : ReachedOk g img) {kids : ℕ → List ℕ}
    (hkids : ∀ x, ∀ k ∈ kids x, k ∈ g.subdirs img x) {y : ℕ} (hy : Reach kids rootInodeNum y) :
    g.DirReached img y := by
  induction hy with
  | refl => exact ⟨ht.root,.refl⟩
  | @tail x k _ hk ih =>
    have hsub := hkids x k hk
    exact ih.tail ((h.dir x ih).1.subdirs_below hsub (ht.types x ih k hsub))

theorem TypesFit.unfolds (ht : TypesFit g img) (h : ReachedOk g img) {kids : ℕ → List ℕ}
    (hkids : ∀ x, ∀ k ∈ kids x, k ∈ g.subdirs img x)
    (hpass1 : ∀ x, ∀ k ∈ g.pass1Kids img x, k ∈ kids x) :
    ∃ l, Unfolds kids [rootInodeNum] l ∧ ∀ y, y ∈ l ↔ g.DirReached img y := by
  have hreach : ∀ y, Reach kids rootInodeNum y → g.DirReached img y := fun y => ht.reached h hkids
  have hacyc : Acyclic kids rootInodeNum := (h.acyclic_from_root ht.root).of_sub fun y hy k hk =>
    (h.dir y (hreach y hy)).1.subdirs_below (hkids y k hk) (ht.types y (hreach y hy) k (hkids y k hk))
  obtain ⟨l,hl⟩ := hacyc.unfolds (reach_finite fun y hy => (h.dir y (hreach y hy)).1.num_le)
  refine ⟨l,hl,fun y => ⟨fun hy => hreach y (hl.mem_iff.mp hy),fun hy => hl.mem_iff.mpr ?_⟩⟩
  exact Relation.ReflTransGen.mono (fun a b => hpass1 a b) _ _ (ht.reach_pass1 h hy)

theorem TypesFit.walk_reached (ht : TypesFit g img) (h : ReachedOk g img) {y : ℕ}
    (hy : Reach (g.walkKids img) rootInodeNum y) : g.DirReached img y ∨
      g.entered img y = false ∧ ∃ x, g.DirReached img x ∧ ∃ e ∈ g.nonDot img x, e.inode = y := by
  induction hy with
  | refl => exact Or.inl ⟨ht.root,.refl⟩
  | @tail x k _ hk ih =>
    rcases ih with hx | ⟨hno,_⟩
    · rw [walkKids_of_entered (entered_of_dir hx.isDir)] at hk
      obtain ⟨e,he,rfl⟩ := List.mem_map.mp hk
      cases hent : g.entered img e.inode with
      | true => exact Or.inl (hx.tail ((h.dir x hx).1.nonDot_below he (ht.modes x hx e he hent)))
      | false => exact Or.inr ⟨rfl,x,hx,e,he,rfl⟩
    · rw [walkKids_of_not_entered hno] at hk
      cases hk

theorem TypesFit.walk_unfolds (ht : TypesFit g img) (h : ReachedOk g img) :
    ∃ l, Unfolds (g.walkKids img) [rootInodeNum] l ∧
      ∀ y, y ∈ l.filter (g.entered img) ↔ g.DirReached img y := by
  have hacyc : Acyclic (g.walkKids img) rootInodeNum := by
    intro y hy hc
    have key : ∀ {z}, Relation.TransGen (fun a b => b ∈ g.walkKids img a) y z → g.DirReached img z →
        g.DirReached img y → Relation.TransGen (fun a b => b ∈ g.dirsBelow img a) y z := by
      intro z hz
      have hedge : ∀ {a b}, g.DirReached img a → b ∈ g.walkKids img a → g.DirReached img b →
          b ∈ g.dirsBelow img a := fun ha hk hb => by
        rw [walkKids_of_entered (entered_of_dir ha.isDir)] at hk
        obtain ⟨e,he,rfl⟩ := List.mem_map.mp hk
        exact (h.dir _ ha).1.nonDot_below he hb.isDir
      induction hz with
      | single hk => exact fun hz hy => .single (hedge hy hk hz)
      | @tail b z hb hk ih =>
        intro hz hy'
        rcases ht.walk_reached h (hy.trans hb.to_reflTransGen) with hb' | ⟨hno,_⟩
        · exact (ih hb' hy').tail (hedge hb' hk hz)
        · rw [walkKids_of_not_entered hno] at hk
          cases hk
    rcases ht.walk_reached h hy with hy' | ⟨hno,_⟩
    · exact h.acyclic y hy' (key hc hy' hy')
    · obtain ⟨k,hk,_⟩ := Relation.TransGen.head'_iff.mp hc
      rw [walkKids_of_not_entered hno] at hk
      cases hk
  obtain ⟨l,hl⟩ := hacyc.unfolds (reach_finite fun y hy => by
    rcases ht.walk_reached h hy with hy' | ⟨_,x,hx,e,he,rfl⟩
    · exact (h.dir y hy').1.num_le
    · exact (h.named hx (nonDot_named he)).2)
  refine ⟨l,hl,fun y => ?_⟩
  rw [List.mem_filter,hl.mem_iff]
  constructor
  · rintro ⟨hy,hent⟩
    rcases ht.walk_reached h hy with hy' | ⟨hno,_⟩
    · exact hy'
    · rw [hent] at hno
      cases hno
  · intro hy
    refine ⟨?_,entered_of_dir hy.isDir⟩
    have hr := ht.reach_pass1 h hy
    induction hr with
    | refl => exact .refl
    | @tail x k hx hk ih =>
      have hx' := ht.reached h (fun _ _ => pass1Kids_subdirs) hx
      refine (ih hx').tail ?_
      rw [walkKids_of_entered (entered_of_dir hx'.isDir)]
      obtain ⟨e,he,rfl⟩ := List.mem_map.mp (pass1Kids_subdirs hk)
      exact List.mem_map_of_mem (List.mem_filter.mp he).1

theorem TypesFit.traversor (ht : TypesFit g img) (hg : Geometry g) (hf : g.Fits img)
    (h : ReachedOk g img) : ∃ n, ∀ fuel, n ≤ fuel → g.Expands img
      (traversorNoted g written fuel (calloc (g.superBlock.sInodesCount+1)) rootInodeNum) := by
  obtain ⟨l,hl,hmem⟩ := ht.unfolds h (fun _ _ => id) fun _ _ => pass1Kids_subdirs
  refine ⟨l.length,fun fuel hfuel => ?_⟩
  let w : Tour := ⟨g.subdirs img,fun _ => true,fun _ => True,fun _ => False⟩
  have hwalk : w.Walked (Counting g img) [rootInodeNum]
      (fun c => traversorNoted g written fuel c rootInodeNum) (Counting g img) :=
    traversorNoted_walked hg hf written_keepsLog (X := g.DirReached img) (fun y hy =>
      Or.inl ⟨notes_written rfl,(h.dirOk hy).1,rfl,fun k hk =>
        hy.tail ((h.dir y hy).1.subdirs_below hk (ht.types y hy k hk))⟩) fuel ⟨ht.root,.refl⟩
      (Or.inr ⟨l,hl,hfuel⟩)
  have hsize : (calloc (g.superBlock.sInodesCount+1)).size = g.superBlock.sInodesCount+1 := by
    rw [calloc_inodes hg]
    rfl
  obtain ⟨t,d',hr,hout⟩ := hwalk.runs (d := ⟨img,[]⟩) ⟨hsize,rfl⟩ hl (fun _ => trivial) fun _ => id
  refine ⟨t,d',hr,fun y => ?_⟩
  rw [← hmem y,hout]
  simp [w]

theorem TypesFit.pass1 (ht : TypesFit g img) (hg : Geometry g) (hf : g.Fits img)
    (h : ReachedOk g img) : ∃ n, ∀ fuel, n ≤ fuel → g.Expands img
      (pass1Noted g written fuel rootInodeNum rootInodeNum) := by
  obtain ⟨l,hl,hmem⟩ := ht.unfolds h (fun _ _ => pass1Kids_subdirs) fun _ _ => id
  refine ⟨l.length,fun fuel hfuel => ?_⟩
  let w : Tour := ⟨g.pass1Kids img,fun _ => true,fun _ => True,fun _ => False⟩
  have hwalk : w.Walked (fun (_ : Unit) d => DotsChanged g (g.DirReached img) img d.image)
      [rootInodeNum] (fun _ => pass1Noted g written fuel rootInodeNum rootInodeNum)
      fun _ d => DotsChanged g (g.DirReached img) img d.image :=
    pass1Noted_walked hg hf written_keepsLog (fun _ => h.dirOk) (Y := g.DirReached img) (fun y hy =>
      Or.inl ⟨hy,notes_written rfl,rfl,fun k hk =>
        hy.tail ((h.dir y hy).1.subdirs_below (pass1Kids_subdirs hk)
          (ht.types y hy k (pass1Kids_subdirs hk)))⟩)
      fuel (by unfold Numbers; decide) ⟨ht.root,.refl⟩ (Or.inr ⟨l,hl,hfuel⟩)
  obtain ⟨t,d',hr,hout⟩ := hwalk.runs (s := ()) (d := ⟨img,[]⟩) (.refl fun y hy => (h.dirOk hy).1) hl
    (fun _ => trivial) fun _ => id
  refine ⟨t,d',hr,fun y => ?_⟩
  rw [← hmem y,hout]
  simp [w]

theorem TypesFit.bitmap (ht : TypesFit g img) (hg : Geometry g) (hbs : 1024 ≤ g.blockSize)
    (hf : g.Fits img) (h : ReachedOk g img) : ∃ n, ∀ fuel, n ≤ fuel → g.Expands img
      (bitmapNoted g written fuel (calloc (g.superBlock.sBlocksCount+1)) rootInodeNum) := by
  obtain ⟨l,hl,hmem⟩ := ht.walk_unfolds h
  refine ⟨l.length,fun fuel hfuel => ?_⟩
  let w : Tour := ⟨g.walkKids img,g.entered img,fun _ => True,fun _ => False⟩
  have hwalk : w.Walked (Mapping g img) [rootInodeNum]
      (fun c => bitmapNoted g written fuel c rootInodeNum) (Mapping g img) := by
    refine bitmapNoted_walked hg hf written_keepsLog
      (X := fun y => Reach (g.walkKids img) rootInodeNum y) (fun y hy => Or.inl ⟨fun hs =>
        notes_written hs,id,?_,rfl,fun hreg _ _ hst => ?_,fun k hk => hy.tail hk⟩) fuel .refl
      (Or.inr ⟨l,hl,hfuel⟩)
    · rcases ht.walk_reached h hy with hy' | ⟨hno,x,hx,e,he,rfl⟩
      · have hok := (h.dirOk hy').1
        exact ⟨hok.num_pos,hok.num_le,fun _ _ => hok⟩
      · have hnum := h.named hx (nonDot_named he)
        exact walkOk_of_not_entered hno hnum.1 hnum.2
    · rcases ht.walk_reached h hy with hy' | ⟨_,x,hx,e,he,rfl⟩
      · rw [(dir_not_lnk_reg hy'.isDir).2] at hreg
        cases hreg
      · exact ht.files x hx e he hreg hst
  obtain ⟨t,d',hr,hout⟩ := hwalk.runs (d := ⟨img,[]⟩) ⟨rfl,calloc_marks hg hbs⟩ hl
    (fun _ => trivial) fun _ => id
  refine ⟨t,d',hr,fun y => ?_⟩
  rw [← hmem y,hout]
  simp [w]

end Fit

theorem reachedOk_of_nodes {img : Buf} {l : List ℕ}
    (hl : Unfolds ((exampleGlobals 16).dirsBelow img) [rootInodeNum] l)
    (hdirs : ∀ x ∈ l, formedDirCheck (exampleGlobals 16) img x = true)
    (hoff : ∀ x ∈ l, ∀ b ∈ (exampleGlobals 16).dirBlocks img x,
      ∀ y ∈ List.range' 1 (exampleGlobals 16).superBlock.sInodesCount, b ≠ (exampleGlobals 16).inodeBlock y) :
    ReachedOk (exampleGlobals 16) img where
  root_le := by decide
  dir x hx := ⟨formedDir_of_check (hdirs x (hl.mem_iff.mpr hx.2)),
    offTable_of_check (hoff x (hl.mem_iff.mpr hx.2))⟩
  acyclic x hx := hl.acyclic x hx.2

/-- The root names directory 11 without a type, and the fifo 12. -/
def untypedImage : Buf := exampleImage 16 [
  inodePiece 2 (inodeBytes 0x4000 1024 2 [7]), inodePiece 11 (inodeBytes 0x4000 1024 2 [8]),
  inodePiece 12 (inodeBytes 0x1000 0 1 []),
  blockPiece 7 0 (dirBytes 2 2 (entryBytes 11 12 0 [97,0,0,0] ++ entryBytes 12 988 5 [98])),
  blockPiece 8 0 (dirBytes 11 2 [])]

end MyFsck
