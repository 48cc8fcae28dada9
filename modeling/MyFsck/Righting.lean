import MyFsck.Settles
import MyFsck.DotsTwice

/-! `pass1` on a tree of directories whose blocks are their own: it ends with all dots right, and the tree
and the walk of `pass4` are as before. -/
namespace MyFsck

open ByteBuffer ErrorState Unfolding Tour

theorem pass1_changed {g : Globals} {img : Buf} (hg : Geometry g) (hf : g.Fits img)
    (hok : ∀ x, Reach (g.subdirs img) rootInodeNum x → DirOk g img x ∧ OffTable g img x) {l : List ℕ}
    (hl : Unfolds (g.pass1Kids img) [rootInodeNum] l) {fuel : ℕ} (hfuel : l.length ≤ fuel) {d : Device}
    (hd : d.image = img) : ∃ d', (pass1 g fuel rootInodeNum rootInodeNum).run d = .ok () d' ∧
      DotsChanged g (Reach (g.subdirs img) rootInodeNum) img d'.image := by
  let w : Tour := ⟨g.pass1Kids img,fun _ => false,fun _ => True,fun _ => False⟩
  have hwalk : w.Walked (fun (_ : Unit) d => DotsChanged g (Reach (g.subdirs img) rootInodeNum) img
      d.image) [rootInodeNum] (fun _ => pass1Noted g silent fuel rootInodeNum rootInodeNum)
      fun _ d => DotsChanged g (Reach (g.subdirs img) rootInodeNum) img d.image :=
    pass1Noted_walked hg hf silent_keepsLog hok (Y := Reach (g.subdirs img) rootInodeNum) (fun y hy =>
      Or.inl ⟨hy,notes_silent rfl y,rfl,fun k hk => hy.tail (pass1Kids_subdirs hk)⟩) fuel
      (by unfold Numbers; decide) .refl (Or.inr ⟨l,hl,hfuel⟩)
  subst hd
  rcases hwalk () d (.refl fun y hy => (hok y hy).1) with ⟨_,u,d',-,hr,hch,-⟩ | ⟨_,_,hno⟩ | ⟨_,_,hno,_⟩
  · rw [pass1Noted_silent] at hr
    exact ⟨d',hr,hch⟩
  · exact absurd trivial hno
  · exact absurd hno id

section Entries

variable {g : Globals} {X : ℕ → Prop} {old new : Buf} {x b : ℕ}

theorem DotsChanged.block_eq (hg : Geometry g) (h : DotsChanged g X old new)
    (hX : ∀ x, X x → DirOk g old x) (hb : ∀ x, X x → b ∈ g.dirBlocks old x → dots (entriesOf (g.blockAt old b)) = []) :
    g.blockAt new b = g.blockAt old b := by
  refine Buf.ext_byte rfl fun j hj => ?_
  have hj' : j < g.blockSize := by simpa using hj
  by_contra hne
  unfold Globals.blockAt at hne
  rw [Buf.slice_byte _ hj',Buf.slice_byte _ hj'] at hne
  obtain ⟨y,hy,c,hc,q,hq,h₁,h₂⟩ := h.bytes _ hne
  have hin := dot_in ((hX y hy).wellFormed c hc) hq
  obtain rfl := place_block hg.sizes (b := b) hj' rfl (c := c) (by omega) (by omega)
  rw [hb y hy hc] at hq
  cases hq

theorem DotsChanged.entry_kept (hg : Geometry g) (h : DotsChanged g X old new) (hX : ∀ x, X x → DirOk g old x)
    (hx : X x) (hb : b ∈ g.dirBlocks old x) {n : ℕ} {q : ℕ × DirEntry} (hn : n < 2)
    (hq : (entriesOf (g.blockAt new b))[n]? = some q) (hd : ¬ dirIsDir q.2 = true) :
    q ∈ entriesOf (g.blockAt old b) := by
  obtain ⟨hwf,hsame⟩ := h.blocks x hx b hb
  have hold := (hX x hx).wellFormed b hb
  have hfront := congrArg (fun es : List (ℕ × DirEntry) => es[n]?) hsame.front
  simp only [List.getElem?_map,List.getElem?_take_of_lt hn,hq,Option.map_some] at hfront
  obtain ⟨q₀,hq₀,he⟩ := Option.map_eq_some_iff.mp hfront.symm
  have hmem₀ := List.mem_of_getElem? hq₀
  obtain ⟨o,e⟩ := q
  obtain ⟨o₀,e₀⟩ := q₀
  have ho : o₀ = o := congrArg Prod.fst he
  have he' : { e₀ with inode := 0 } = { e with inode := 0 } := congrArg Prod.snd he
  subst ho
  have hd₀ : ¬ dirIsDir e₀ = true := by
    have htype : e₀.fileType = e.fileType := by
      have := congrArg DirEntry.fileType he'
      exact this
    unfold dirIsDir at hd ⊢
    rw [htype]
    exact hd
  have hin := hold.entry_in _ hmem₀
  have hin' := hwf.entry_in _ (List.mem_of_getElem? hq)
  rw [blockAt_size] at hin
  dsimp only at hin hin'
  have hnum : e.inode = e₀.inode := by
    rw [hin'.2.1,hin.2.1]
    refine num_congr fun k hk => ?_
    have hk' : o₀+k < g.blockSize := by
      have := hin.2.2
      omega
    by_contra hne
    unfold Globals.blockAt at hne
    rw [Buf.slice_byte _ hk',Buf.slice_byte _ hk'] at hne
    obtain ⟨y,hy,c,hc,p,hp,h₁,h₂⟩ := h.bytes _ hne
    have hpin := dot_in ((hX y hy).wellFormed c hc) hp
    obtain rfl := place_block hg.sizes (b := b) hk' rfl (c := c) (by omega) (by omega)
    rcases hold.places_apart _ hmem₀ p (mem_of_dots hp) with hpo | hpo | hpo
    · have hsame : (o₀,e₀) = p := Prod.ext hpo (by
        rw [hin.2.1,(hold.entry_in p (mem_of_dots hp)).2.1,← hpo])
      rw [← hsame] at hp
      exact hd₀ (List.mem_filter.mp hp).2
    · omega
    · omega
  have hee : e = e₀ := by
    cases e
    cases e₀
    simp only [DirEntry.mk.injEq] at he' hnum ⊢
    exact ⟨hnum,he'.2.1.symm,he'.2.2.1.symm,he'.2.2.2.1.symm,he'.2.2.2.2.symm⟩
  rw [hee]
  exact hmem₀

end Entries

section Views

variable {g : Globals} {img : Buf} (hg : Geometry g) (hf : g.Fits img)
include hg hf

theorem inodeIn_at {x : ℕ} (h1 : 1 ≤ x) (hx : x ≤ g.superBlock.sInodesCount) :
    g.inodeIn img x = some (g.inodeAt img x) := valueIn_ok (readInode_run hg (d := ⟨img,[]⟩) hf h1 hx)

theorem blockIn_at {b : ℕ} (hb : b < g.superBlock.sBlocksCount) : g.blockIn img b = some (g.blockAt img b) :=
  valueIn_ok (block_run hg.sizes (d := ⟨img,[]⟩) hf hb)

theorem dirBlocksIn_at {x : ℕ} (h1 : 1 ≤ x) (hx : x ≤ g.superBlock.sInodesCount) :
    g.dirBlocksIn img x = g.dirBlocks img x := dirBlocksIn_eq (inodeIn_at hg hf h1 hx)

omit hg hf in
theorem gathered_const (own : ℕ → List ℕ) (i : ℕ) (bs : List ℕ) :
    gathered (fun _ b => own b) i bs = bs.flatMap own := by
  induction bs generalizing i with
  | nil => rfl
  | cons b bs ih => rw [gathered,ih,List.flatMap_cons]

theorem pass1KidsIn_at {x : ℕ} (hok : DirOk g img x) : g.pass1KidsIn img x = g.pass1Kids img x := by
  rw [Globals.pass1KidsIn,dirBlocksIn_at hg hf hok.num_pos hok.num_le,Globals.pass1Kids,gathered_const]
  exact List.flatMap_congr fun b hb => by rw [blockEntriesIn_eq (blockIn_at hg hf (hok.blocks_lt b hb))]

end Views

theorem GroupLayout.tableBlock_of {g : Globals} (hl : GroupLayout g) {x t : ℕ} (h1 : 1 ≤ x)
    (hx : x ≤ g.superBlock.sInodesCount) (h : g.TableBlock x t) : g.tableBlock t := by
  obtain ⟨gd,hgd,i,hi,rfl⟩ := h
  have hlt := (hl.geometry.inodeGroup_lt h1 hx).trans_le hl.groups_eq
  have hgroup : g.getInodeGroupOffset x = g.inodeGroup x := by
    rw [Globals.getInodeGroupOffset,pred32_eq h1 (hx.trans_lt hl.geometry.inodesCount_lt),Globals.inodeGroup]
  rw [hgroup] at hgd
  rw [hl.geometry.tables.tableBlocks_eq] at hi
  obtain ⟨gd',hrun,-,-,htable⟩ := hl.groupDesc_run ⟨Buf.zero 0,[]⟩ hlt
  unfold readGroupDesc at hrun
  unfold Globals.groupDesc at hgd
  rw [hgd,inBounds_some] at hrun
  cases hrun
  have hplace := hl.groupStart_lt hlt
  have hcount := hl.count_lt
  simp only [Globals.skip] at hplace
  rw [htable,u32_eq (by omega)]
  exact ⟨_,hlt,by omega,by omega⟩

/-- The trees the passes are made for: only the first block of a directory begins with dots, no
directory is named twice, and what an entry calls a directory is none of a link and a regular file; the
walk of `pass4` ends and can mark what it comes to, which are blocks behind the metadata, none of them for
two inodes. -/
structure Sound (g : Globals) (img : Buf) : Prop where
  later : PlainLater g img
  parent : OneParent (g.subdirs img) rootInodeNum
  typed : ∀ x, Reach (g.subdirs img) rootInodeNum x →
    inodeIsLnk (g.inodeAt img x) = false ∧ inodeIsReg (g.inodeAt img x) = false
  walk : Walkable g img
  data : ∀ x, Reach (g.walkKids img) rootInodeNum x → ∀ b ∈ g.ownMarks img x, g.dataBlock b
  apart : ∀ x y, Reach (g.walkKids img) rootInodeNum x → Reach (g.walkKids img) rootInodeNum y → x ≠ y →
    ∀ b ∈ g.ownMarks img x, b ∉ g.ownMarks img y

namespace Sound

variable {g : Globals} {img : Buf} {x : ℕ}

section Tree

variable (h : Sound g img)
include h

theorem walk_dir (hx : Reach (g.subdirs img) rootInodeNum x) :
    g.walkKids img x = (g.nonDot img x).map DirEntry.inode ∧ g.ownMarks img x = g.dirBlocks img x := by
  obtain ⟨hlnk,hreg⟩ := h.typed x hx
  unfold Globals.walkKids Globals.ownMarks
  rw [hlnk,hreg]
  exact ⟨if_neg (by decide),by rw [if_neg Bool.false_ne_true,if_neg Bool.false_ne_true]⟩

theorem reach_walk (hx : Reach (g.subdirs img) rootInodeNum x) : Reach (g.walkKids img) rootInodeNum x := by
  induction hx with
  | refl => exact .refl
  | @tail y k hy hk ih =>
    refine ih.tail ?_
    rw [(h.walk_dir hy).1]
    exact subdirs_named_nonDot hk

theorem dirOk (hx : Reach (g.subdirs img) rootInodeNum x) : DirOk g img x :=
  (h.walk.walk x (h.reach_walk hx)).dir (h.typed x hx).1 (h.typed x hx).2

theorem tree : DirTree g img :=
  ⟨h.parent.acyclic,fun _ hx => h.dirOk hx⟩

theorem dir_data (hx : Reach (g.subdirs img) rootInodeNum x) : ∀ b ∈ g.dirBlocks img x, g.dataBlock b := by
  rw [← (h.walk_dir hx).2]
  exact h.data x (h.reach_walk hx)

theorem dir_apart {y b : ℕ} (hx : Reach (g.subdirs img) rootInodeNum x)
    (hy : Reach (g.subdirs img) rootInodeNum y) (hbx : b ∈ g.dirBlocks img x) (hby : b ∈ g.dirBlocks img y) :
    x = y := by
  by_contra hne
  rw [← (h.walk_dir hx).2] at hbx
  rw [← (h.walk_dir hy).2] at hby
  exact h.apart x y (h.reach_walk hx) (h.reach_walk hy) hne b hbx hby

theorem pass1Kids_eq (hx : Reach (g.subdirs img) rootInodeNum x) : g.pass1Kids img x = g.subdirs img x :=
  pass1Kids_eq_iff.mpr (h.later x hx)

theorem reach_pass1 : Reach (g.pass1Kids img) rootInodeNum x ↔ Reach (g.subdirs img) rootInodeNum x :=
  Reach.congr fun _ hy => h.pass1Kids_eq hy

theorem deepEnough : ∃ n, ∀ fuel, n ≤ fuel → DeepEnough g img fuel := by
  obtain ⟨ds,hds,-⟩ := h.tree.unfolds
  obtain ⟨xs,hxs⟩ := h.walk.unfolds
  exact ⟨_,fun fuel hfuel => ⟨ds,ds,xs,hds,hds.congr fun y hy => h.pass1Kids_eq (hds.mem_iff.mp hy),hxs,hfuel⟩⟩

variable (hl : GroupLayout g) (hf : g.Fits img)
include hl hf

theorem pass1KidsIn_eq (hx : Reach (g.subdirs img) rootInodeNum x) :
    g.pass1KidsIn img x = g.subdirs img x :=
  (pass1KidsIn_at hl.geometry hf (h.dirOk hx)).trans (h.pass1Kids_eq hx)

theorem descended : g.Descended img x ↔ Reach (g.subdirs img) rootInodeNum x :=
  Reach.congr fun _ hy => h.pass1KidsIn_eq hl hf hy

theorem dirTreeIn : DirTreeIn g img := by
  have hblocks : ∀ x, g.Descended img x → g.dirBlocksIn img x = g.dirBlocks img x := fun x hx =>
    dirBlocksIn_at hl.geometry hf (h.dirOk ((h.descended hl hf).mp hx)).num_pos (h.dirOk ((h.descended hl hf).mp hx)).num_le
  have hkids : ∀ x, g.Descended img x → g.pass1KidsIn img x = g.subdirs img x := fun x hx =>
    h.pass1KidsIn_eq hl hf ((h.descended hl hf).mp hx)
  refine ⟨?_,⟨fun x hx hr => ?_,fun x y z hx hy hzx hzy => ?_⟩,fun x hx => ?_,fun x hx b hb => ?_,
    fun x y hx hy b hb c hc hne => ?_,fun x y hx hy b hb t ht => ?_⟩
  · refine (Set.finite_Icc 1 g.superBlock.sInodesCount).subset fun x hx => ?_
    have hok := h.dirOk ((h.descended hl hf).mp hx)
    exact ⟨hok.num_pos,hok.num_le⟩
  · rw [hkids x hx] at hr
    exact h.parent.root x ((h.descended hl hf).mp hx) hr
  · rw [hkids x hx] at hzx
    rw [hkids y hy] at hzy
    exact h.parent.one x y z ((h.descended hl hf).mp hx) ((h.descended hl hf).mp hy) hzx hzy
  · have hok := h.dirOk ((h.descended hl hf).mp hx)
    exact ⟨_,inodeIn_at hl.geometry hf hok.num_pos hok.num_le⟩
  · have hok := h.dirOk ((h.descended hl hf).mp hx)
    rw [hblocks x hx] at hb
    exact ⟨_,blockIn_at hl.geometry hf (hok.blocks_lt b hb),hok.wellFormed b hb⟩
  · rw [hblocks x hx] at hb
    rw [hblocks y hy] at hc
    have hx' := (h.descended hl hf).mp hx
    have hy' := (h.descended hl hf).mp hy
    refine hl.geometry.apart ((h.dirOk hx').blocks_lt b hb).le ((h.dirOk hy').blocks_lt c hc).le ?_
    rintro rfl
    exact hne.elim (fun hxy => hxy (h.dir_apart hx' hy' hb hc)) fun hbc => hbc rfl
  · rw [hblocks x hx] at hb
    have hx' := (h.descended hl hf).mp hx
    have hoky := h.dirOk ((h.descended hl hf).mp hy)
    have htable := hl.tableBlock_of hoky.num_pos hoky.num_le ht
    refine hl.geometry.apart (hl.tableBlock_lt htable).2.le ((h.dirOk hx').blocks_lt b hb).le ?_
    rintro rfl
    have hplace := (hl.tableBlock_place htable).2
    have hdata := (h.dir_data hx' t hb).2.2
    omega

end Tree

section Behind

variable (h : Sound g img) {m : Buf} (hch : DotsChanged g (Reach (g.subdirs img) rootInodeNum) img m)
include h hch

theorem behind_blocks (hx : Reach (g.subdirs img) rootInodeNum x) : g.dirBlocks m x = g.dirBlocks img x := by
  rw [Globals.dirBlocks,hch.inodes x (h.dirOk hx).num_pos (h.dirOk hx).num_le,Globals.dirBlocks]

theorem behind_kids (hx : Reach (g.subdirs img) rootInodeNum x) : g.pass1Kids m x = g.pass1Kids img x := by
  rw [Globals.pass1Kids,h.behind_blocks hch hx]
  exact gathered_congr (fun _ b hb => (hch.blocks x hx b hb).2.picked) 0

theorem behind_nonDot (hg : Geometry g) (hx : Reach (g.subdirs img) rootInodeNum x) :
    g.nonDot m x = g.nonDot img x := by
  have hblocks := h.behind_blocks hch hx
  have hlater := h.later x hx
  have hsame := hch.blocks x hx
  unfold Globals.nonDot Globals.dirEntries
  rw [hblocks]
  cases hbs : g.dirBlocks img x with
  | nil => rw [List.map_nil,List.map_nil]
  | cons b bs =>
    rw [hbs] at hlater hsame
    have hrest : bs.map (fun c => entriesOf (g.blockAt m c)) = bs.map fun c => entriesOf (g.blockAt img c) :=
      List.map_congr_left fun c hc => by
        rw [hch.block_eq hg (fun y hy => h.dirOk hy) fun _ _ _ => hlater c hc]
    rw [List.map_cons,List.map_cons,hrest,nonDotBlocks,nonDotBlocks,nonDotFrom_drop,nonDotFrom_drop,
      (hsame b (by simp)).2.behind]

theorem behind_subdirs (hg : Geometry g) (hx : Reach (g.subdirs img) rootInodeNum x) :
    g.subdirs m x = g.subdirs img x := by
  rw [Globals.subdirs,h.behind_nonDot hch hg hx,Globals.subdirs]

theorem behind_walk (hg : Geometry g) (hok : ∀ x, Reach (g.subdirs img) rootInodeNum x → DirOk g m x)
    (hx : Reach (g.walkKids img) rootInodeNum x) :
    g.ownMarks m x = g.ownMarks img x ∧ g.walkKids m x = g.walkKids img x ∧ WalkOk g m x ∧
      (inodeIsReg (g.inodeAt m x) = true → FileOk g m (g.inodeAt m x)) := by
  have hw := h.walk.walk x hx
  have hinode := hch.inodes x hw.num_pos hw.num_le
  by_cases hd : Reach (g.subdirs img) rootInodeNum x
  · obtain ⟨hlnk,hreg⟩ := h.typed x hd
    unfold Globals.ownMarks Globals.walkKids
    rw [hinode,hlnk,hreg,h.behind_nonDot hch hg hd,h.behind_blocks hch hd]
    simp only [Bool.false_eq_true,if_false,true_and]
    exact ⟨⟨hw.num_pos,hw.num_le,fun _ _ => hok x hd⟩,fun hno => absurd hno id⟩
  · have hkept : Kept g (fun b => ∀ y, Reach (g.subdirs img) rootInodeNum y → b ∉ g.dirBlocks img y) img m :=
      ⟨fun i h1 hi => by rw [hch.inodes i h1 hi]; exact rfl,fun b hb =>
        hch.block_eq hg (fun y hy => h.dirOk hy) fun y hy hby => absurd hby (hb y hy)⟩
    have hmarks : ∀ b ∈ g.ownMarks img x, ∀ y, Reach (g.subdirs img) rootInodeNum y → b ∉ g.dirBlocks img y := by
      intro b hb y hy hby
      rw [← (h.walk_dir hy).2] at hby
      refine h.apart x y hx (h.reach_walk hy) ?_ b hb hby
      rintro rfl
      exact hd hy
    obtain ⟨h₁,h₂⟩ := hkept.walk_eq hw hmarks
    exact ⟨h₁,h₂,hkept.walkOk hw hmarks,hkept.fileOk hw hmarks (h.walk.files x hx)⟩

variable {par : ℕ → ℕ} (hl : GroupLayout g) (hf : g.Fits img)
  (hm : Mended g img par (g.spotsBelow img rootInodeNum) m) (hroot : par rootInodeNum = rootInodeNum)
  (hpar : ∀ x, Reach (g.subdirs img) rootInodeNum x → ∀ k ∈ g.subdirs img x, par k = x)

include hl hf hm in
theorem behind_right (hx : Reach (g.subdirs img) rootInodeNum x) : DotsRight g m (par x) x := by
  intro b hb n hn q hq
  rw [h.behind_blocks hch hx] at hb
  have hok := h.dirOk hx
  have hspot : (⟨x,b,n⟩ : Spot) ∈ g.spotsBelow img rootInodeNum :=
    ⟨(h.descended hl hf).mpr hx,by rwa [dirBlocksIn_at hl.geometry hf hok.num_pos hok.num_le],hn⟩
  refine (hm.right _ hspot).2.2 q ?_
  rwa [blockEntriesIn_eq (blockIn_at hl.geometry (hch.fits hf) (hok.blocks_lt b hb))]

include hroot hpar in
omit hch in
theorem parent_le (hx : Reach (g.subdirs img) rootInodeNum x) : par x ≤ g.superBlock.sInodesCount := by
  rcases Relation.ReflTransGen.cases_tail hx with rfl | ⟨y,hy,hk⟩
  · rw [hroot]
    exact (h.dirOk hx).num_le
  · rw [hpar y hy x hk]
    exact (h.dirOk hy).num_le

include hl hf hm hroot hpar in
theorem behind_dirOk (hx : Reach (g.subdirs img) rootInodeNum x) : DirOk g m x := by
  have hok := h.dirOk hx
  have hblocks := h.behind_blocks hch hx
  refine ⟨hok.num_pos,hok.num_le,fun b hb => ?_,fun b hb => ?_,fun v hv => ?_⟩
  · rw [hblocks] at hb
    exact hok.blocks_lt b hb
  · rw [hblocks] at hb
    exact (hch.blocks x hx b hb).1
  · obtain ⟨q,hq,rfl⟩ := List.mem_map.mp hv
    obtain ⟨es,hes,hq⟩ := List.mem_flatten.mp hq
    obtain ⟨b,hb,rfl⟩ := List.mem_map.mp hes
    have hb' := hb
    rw [hblocks] at hb'
    obtain ⟨n,hn⟩ := List.mem_iff_getElem?.mp hq
    by_cases h2 : n < 2
    · by_cases hd : dirIsDir q.2 = true
      · rcases h.behind_right hch hl hf hm hx b hb n h2 q hn hd with ⟨-,he⟩ | ⟨-,he⟩
        · rw [he]
          exact hok.num_le
        · rw [he]
          exact h.parent_le hroot hpar hx
      · exact hok.named_le _ (mem_named hb' (hch.entry_kept hl.geometry (fun y hy => h.dirOk hy) hx hb' h2 hn hd))
    · refine hok.named_le _ (mem_named hb' (List.mem_of_mem_drop (i := 2) ?_))
      rw [← (hch.blocks x hx b hb').2.behind]
      refine List.mem_of_getElem? (i := n-2) ?_
      rw [List.getElem?_drop,show 2+(n-2) = n by omega,hn]

include hl hf hm hroot hpar in
theorem behind_righted : Righted g m := by
  have hg := hl.geometry
  have hok := fun x hx => h.behind_dirOk hch hl hf hm hroot hpar (x := x) hx
  have hreach : ∀ {x}, Reach (g.subdirs m) rootInodeNum x ↔ Reach (g.subdirs img) rootInodeNum x :=
    Reach.congr fun y hy => h.behind_subdirs hch hg hy
  have hreach₁ : ∀ {x}, Reach (g.pass1Kids m) rootInodeNum x ↔ Reach (g.subdirs img) rootInodeNum x :=
    (Reach.congr fun y hy => h.behind_kids hch (h.reach_pass1.mp hy)).trans h.reach_pass1
  have hwalk := fun x hx => h.behind_walk hch hg hok (x := x) hx
  have hreach₂ : ∀ {x}, Reach (g.walkKids m) rootInodeNum x ↔ Reach (g.walkKids img) rootInodeNum x :=
    Reach.congr fun y hy => (hwalk y hy).2.1
  have hright := fun x hx => h.behind_right hch hl hf hm (x := x) hx
  refine ⟨⟨?_,fun x hx => hok x (hreach.mp hx)⟩,⟨?_,fun x hx k hk => ?_⟩,⟨?_,fun x hx => ?_,fun x hx => ?_⟩,
    fun x hx b hb => ?_,fun x hx b hb => ?_⟩
  · exact h.parent.acyclic.of_sub fun y hy k hk => by
      rwa [h.behind_subdirs hch hg (hreach.mp hy)] at hk
  · have hr := hright rootInodeNum .refl
    rwa [hroot] at hr
  · have hx' := hreach₁.mp hx
    rw [h.behind_kids hch hx',h.pass1Kids_eq hx'] at hk
    have hr := hright k (hx'.tail hk)
    rwa [hpar x hx' k hk] at hr
  · exact h.walk.acyclic.of_sub fun y hy k hk => by
      rwa [(hwalk y (hreach₂.mp hy)).2.1] at hk
  · exact (hwalk x (hreach₂.mp hx)).2.2.1
  · exact (hwalk x (hreach₂.mp hx)).2.2.2
  · rw [h.behind_blocks hch (hreach.mp hx)] at hb
    exact hl.data_plain (h.dir_data (hreach.mp hx) b hb)
  · rw [(hwalk x (hreach₂.mp hx)).1] at hb
    exact hl.data_plain (h.data x (hreach₂.mp hx) b hb)

end Behind

theorem pass1_run (hl : GroupLayout g) (hf : g.Fits img) (h : Sound g img) {fuel : ℕ}
    (hfuel : DeepEnough g img fuel) {d : Device} (hd : d.image = img) :
    ∃ d', (pass1 g fuel rootInodeNum rootInodeNum).run d = .ok () d' ∧ g.Fits d'.image ∧ Righted g d'.image ∧
      DeepEnough g d'.image fuel := by
  subst hd
  have hg := hl.geometry
  have ht := h.dirTreeIn hl hf
  obtain ⟨ds,ps,xs,hds,hps,hxs,hle⟩ := hfuel
  obtain ⟨par,hroot,hpar⟩ := ht.tree.exists_parent
  have hpar' : ∀ x, Reach (g.subdirs d.image) rootInodeNum x → ∀ k ∈ g.subdirs d.image x, par k = x := by
    intro x hx k hk
    rw [← h.pass1KidsIn_eq hl hf hx] at hk
    exact hpar x ((h.descended hl hf).mpr hx) k hk
  have hnum : ∀ x, g.Descended d.image x → Numbers x ∧ Numbers (par x) := by
    intro x hx
    have hx' := (h.descended hl hf).mp hx
    refine ⟨ht.numbers hx,?_,(h.parent_le hroot hpar' hx').trans_lt hg.inodesCount_lt⟩
    rcases Relation.ReflTransGen.cases_tail hx' with rfl | ⟨y,hy,hk⟩
    · rw [hroot]
      decide
    · rw [hpar' y hy x hk]
      exact (h.dirOk hy).num_pos
  have hpsIn : Unfolds (g.pass1KidsIn d.image) [rootInodeNum] ps := hps.congr fun y hy => by
    have hy' := h.reach_pass1.mp (hps.mem_iff.mp hy)
    rw [h.pass1KidsIn_eq hl hf hy',h.pass1Kids_eq hy']
  have hmends := pass1_mends hg.sector_dvd ht hpar hnum hpsIn .refl fuel (by omega)
  rw [hroot] at hmends
  obtain ⟨d₁,hrun,hm⟩ := hmends ∅ d ht.mended
  rw [Set.empty_union] at hm
  obtain ⟨d₂,hrun₂,hch⟩ := pass1_changed hg hf (fun x hx => ⟨h.dirOk hx,fun b hb i h1 hi =>
    (hl.data_plain (h.dir_data hx b hb)).1 i h1 hi⟩) hps (show ps.length ≤ fuel by omega) rfl
  rw [hrun] at hrun₂
  cases hrun₂
  have hok := fun x hx => h.behind_dirOk hch hl hf hm hroot hpar' (x := x) hx
  refine ⟨d₁,hrun,hch.fits hf,h.behind_righted hch hl hf hm hroot hpar',ds,ps,xs,hds.congr fun y hy => ?_,
    hps.congr fun y hy => ?_,hxs.congr fun y hy => ?_,hle⟩
  · exact h.behind_subdirs hch hg (hds.mem_iff.mp hy)
  · exact h.behind_kids hch (h.reach_pass1.mp (hps.mem_iff.mp hy))
  · exact (h.behind_walk hch hg hok (hxs.mem_iff.mp hy)).2.1

end Sound

end MyFsck
