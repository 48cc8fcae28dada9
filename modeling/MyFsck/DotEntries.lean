import MyFsck.WalksEnd

/-! Where `pass1` writes. It counts the entries of each block from 0, so that in every block of a
directory, and not only in the first, it takes the first two for the entries `.` and `..`. -/
namespace MyFsck

open ByteBuffer ErrorState Unfolding Tour

section Later

variable {g : Globals} {img : Buf}

theorem subdirsOf_later {i b : ℕ} (hi : i ≠ 0) : g.subdirsOf img i b =
    (dots (entriesOf (g.blockAt img b))).map (fun q => q.2.inode) ++
      picked follows 0 (entriesOf (g.blockAt img b)) := by
  rw [Globals.subdirsOf,picked_nonDot (p := dirIsDir) (fun _ _ => rfl),nonDotFrom_later hi,picked_follows]
  conv_lhs => rw [← List.take_append_drop 2 (entriesOf (g.blockAt img b))]
  simp only [dots,List.map_append,List.filter_append,List.filter_map,List.map_map]
  rfl

theorem subdirsOf_first (b : ℕ) :
    g.subdirsOf img 0 b = picked follows 0 (entriesOf (g.blockAt img b)) := by
  unfold Globals.subdirsOf
  congr 1
  funext count e
  simp [follows]

theorem gathered_later {i : ℕ} (hi : i ≠ 0) (bs : List ℕ) :
    gathered (fun _ b => picked follows 0 (entriesOf (g.blockAt img b))) i bs =
      gathered (g.subdirsOf img) i bs ↔ ∀ b ∈ bs, dots (entriesOf (g.blockAt img b)) = [] := by
  induction bs generalizing i with
  | nil => simp [gathered]
  | cons b bs ih =>
    have hrest := ih (i := i+1) (by omega)
    rw [gathered,gathered]
    constructor
    · intro heq
      have hlen := congrArg List.length heq
      have hle₁ := (follows_subdirsOf g img i b).length_le
      have hle₂ := (gathered_sublist (follows_subdirsOf g img) (i+1) bs).length_le
      simp only [List.length_append] at hlen
      have hfirst := (follows_subdirsOf g img i b).eq_of_length (by omega)
      have hback := (gathered_sublist (follows_subdirsOf g img) (i+1) bs).eq_of_length (by omega)
      intro c hc
      rcases List.mem_cons.mp hc with rfl | hc
      · rw [subdirsOf_later hi] at hfirst
        have hlen' := congrArg List.length hfirst
        simp only [List.length_append,List.length_map] at hlen'
        exact List.length_eq_zero_iff.mp (by omega)
      · exact hrest.mp hback c hc
    · intro hall
      rw [hrest.mpr fun c hc => hall c (by simp [hc]),subdirsOf_later hi,hall b (by simp)]
      rfl

theorem pass1Kids_eq_iff {x : ℕ} : g.pass1Kids img x = g.subdirs img x ↔
    ∀ b ∈ (g.dirBlocks img x).tail, dots (entriesOf (g.blockAt img b)) = [] := by
  rw [subdirs_gathered,Globals.pass1Kids]
  cases g.dirBlocks img x with
  | nil => simp [gathered]
  | cons b bs =>
    rw [gathered,gathered,subdirsOf_first,List.append_cancel_left_eq,List.tail_cons]
    exact gathered_later (by omega) bs

end Later

/-- No later block of a directory reached has an entry of type directory among its first two. -/
def PlainLater (g : Globals) (img : Buf) : Prop :=
  ∀ x, Reach (g.subdirs img) rootInodeNum x → ∀ b ∈ (g.dirBlocks img x).tail,
    dots (entriesOf (g.blockAt img b)) = []

/-- `pass1` goes from `x` to all directories below it: the entries that name them have the type of a
directory, stand behind no unused one, and are in a later block not among the first two. -/
structure Globals.Followed (g : Globals) (img : Buf) (x : ℕ) : Prop where
  typed : ∀ e ∈ g.children img x, inodeIsDir (g.inodeAt img e.inode) = true → dirIsDir e = true
  front : ∀ l ∈ g.slots img x, ∀ q ∈ behindUnused l, inodeIsDir (g.inodeAt img q.2.inode) = false
  later : ∀ l ∈ (g.slots img x).tail, dots (l.filter inUse) = []

section Followed

variable {g : Globals} {img : Buf} {x : ℕ} (h : FormedDir g img x)
include h

theorem FormedDir.hidden_child {l : List (ℕ × DirEntry)} (hl : l ∈ g.slots img x) {q : ℕ × DirEntry}
    (hq : q ∈ behindUnused l) : q.2 ∈ g.children img x :=
  h.children_perm.mem_iff.mpr (List.mem_append_right _
    (List.mem_map_of_mem (List.mem_flatten.mpr ⟨_,List.mem_map_of_mem hl,hq⟩)))

theorem FormedDir.later_iff (hfront : ∀ l ∈ g.slots img x, ∀ q ∈ behindUnused l, dirIsDir q.2 = false) :
    (∀ b ∈ (g.dirBlocks img x).tail, dots (entriesOf (g.blockAt img b)) = []) ↔
      ∀ l ∈ (g.slots img x).tail, dots (l.filter inUse) = [] := by
  have hslots : (g.slots img x).tail = (g.dirBlocks img x).tail.map fun b => slotsOf (g.blockAt img b) := by
    rw [h.dirBlocks_eq,Globals.slots,List.map_tail]
  rw [hslots,List.forall_mem_map]
  refine forall₂_congr fun b hb => ?_
  have hb' : b ∈ g.dirData img x := h.dirBlocks_eq ▸ List.mem_of_mem_tail hb
  have hmem : slotsOf (g.blockAt img b) ∈ g.slots img x := List.mem_map_of_mem hb'
  simp only [dots,List.filter_eq_nil_iff,Bool.not_eq_true]
  rw [(h.block hb').1,filter_inUse]
  have hhidden := hfront _ hmem
  constructor
  · intro hdots q hq
    rw [List.take_append,List.mem_append] at hq
    exact hq.elim (hdots q) fun hq => hhidden q (List.mem_of_mem_take hq)
  · exact fun hdots q hq => hdots q (by rw [List.take_append]; exact List.mem_append_left _ hq)

theorem FormedDir.pass1Kids_eq_iff (ht : ∀ e ∈ g.children img x, dirIsDir e = true →
    inodeIsDir (g.inodeAt img e.inode) = true) :
    g.pass1Kids img x = g.dirsBelow img x ↔ g.Followed img x := by
  have hkids := pass1Kids_sublist g img x
  have hsub := h.subdirs_sublist ht
  have hboth : g.pass1Kids img x = g.dirsBelow img x ↔
      g.pass1Kids img x = g.subdirs img x ∧ g.subdirs img x = g.dirsBelow img x := by
    refine ⟨fun heq => ?_,fun ⟨h₁,h₂⟩ => h₁.trans h₂⟩
    have hlen := congrArg List.length heq
    have hle₁ := hkids.length_le
    have hle₂ := hsub.length_le
    exact ⟨hkids.eq_of_length (by omega),hsub.eq_of_length (by omega)⟩
  have htyped : (∀ l ∈ g.slots img x, ∀ q ∈ behindUnused l, inodeIsDir (g.inodeAt img q.2.inode) = false) →
      ∀ l ∈ g.slots img x, ∀ q ∈ behindUnused l, dirIsDir q.2 = false := fun hfront l hl q hq => by
    cases hd : dirIsDir q.2 with
    | false => rfl
    | true =>
      have hno := hfront l hl q hq
      rw [ht _ (h.hidden_child hl hq) hd] at hno
      cases hno
  rw [hboth,MyFsck.pass1Kids_eq_iff,h.subdirs_eq_iff ht]
  constructor
  · rintro ⟨hlater,hty,hfront⟩
    exact ⟨hty,hfront,(h.later_iff (htyped hfront)).mp hlater⟩
  · rintro ⟨hty,hfront,hlater⟩
    exact ⟨(h.later_iff (htyped hfront)).mpr hlater,hty,hfront⟩

end Followed

/-- Every byte changed lies in the inode number of one of the first two entries of the first block
of a directory of the tree, and the entries of the later blocks keep their inode numbers. -/
structure OnlyFirstDots (g : Globals) (old new : Buf) : Prop where
  size : new.size = old.size
  bytes : ∀ k, new.byte k ≠ old.byte k → ∃ x, g.InTree old x ∧ ∃ b, (g.dirData old x).head? = some b ∧
    ∃ q ∈ (slotsOf (g.blockAt old b)).take 2, g.blockOffset b+q.1 ≤ k ∧ k < g.blockOffset b+q.1+4
  later : ∀ x, g.InTree old x → ∀ b ∈ (g.dirData old x).tail,
    (slotsOf (g.blockAt new b)).map (fun q => q.2.inode) =
      (slotsOf (g.blockAt old b)).map fun q => q.2.inode

/-- The directories of the tree are well formed, outside the inode tables and without a cycle, and an
entry of type directory names a directory. -/
structure TypedTree (g : Globals) (img : Buf) : Prop where
  dirs : ∀ x, g.InTree img x → FormedDir g img x ∧ OffTable g img x
  types : ∀ x, g.InTree img x → ∀ e ∈ g.children img x, dirIsDir e = true →
    inodeIsDir (g.inodeAt img e.inode) = true
  acyclic : Acyclic (g.dirsBelow img) rootInodeNum

section Touches

variable {g : Globals} {img new : Buf}

theorem DotsChanged.onlyFirstDots (hg : Geometry g) (ht : TypedTree g img)
    (h : DotsChanged g (g.InTree img) img new) (hall : ∀ x, g.InTree img x → g.Followed img x) :
    OnlyFirstDots g img new := by
  have hlater : ∀ x, g.InTree img x → ∀ b ∈ (g.dirBlocks img x).tail, dots (entriesOf (g.blockAt img b)) = [] :=
    fun x hx => pass1Kids_eq_iff.mp ((((ht.dirs x hx).1.pass1Kids_eq_iff (ht.types x hx)).mpr
      (hall x hx)).trans (((ht.dirs x hx).1.subdirs_eq_iff (ht.types x hx)).mpr
        ⟨(hall x hx).typed,(hall x hx).front⟩).symm)
  refine ⟨h.size,fun k hk => ?_,fun x hx b hb => ?_⟩
  · obtain ⟨x,hx,b,hb,q,hq,hin⟩ := h.bytes k hk
    have hform := (ht.dirs x hx).1
    refine ⟨x,hx,b,?_,q,?_,hin⟩
    · rw [← hform.dirBlocks_eq]
      cases hbs : g.dirBlocks img x with
      | nil =>
        rw [hbs] at hb
        cases hb
      | cons c cs =>
        rw [hbs] at hb
        rcases List.mem_cons.mp hb with rfl | hb
        · rfl
        · rw [hlater x hx b (by rw [hbs]; exact hb)] at hq
          cases hq
    · have hq' := (List.mem_filter.mp hq).1
      rw [(hform.block (hform.dirBlocks_eq ▸ hb)).1] at hq'
      exact ((List.takeWhile_prefix inUse).take 2).subset hq'
  · have hsame : g.blockAt new b = g.blockAt img b := by
      refine Buf.ext_byte rfl fun i hi => ?_
      rw [blockAt_size] at hi
      unfold Globals.blockAt
      rw [Buf.slice_byte _ hi,Buf.slice_byte _ hi]
      by_contra hne
      obtain ⟨y,hy,c,hc,q,hq,hin⟩ := h.bytes _ hne
      have hentry := ((ht.dirs y hy).1.dirOk.wellFormed c hc).entry_in q
        (List.mem_of_mem_take (List.mem_filter.mp hq).1)
      have hcb : c = b := by
        by_contra hcb
        have hdis := hg.sizes.blocks_disjoint hcb
        have hsize := hentry.2.2.2
        rw [blockAt_size] at hsize
        omega
      rw [hcb,hlater x hx b ((ht.dirs x hx).1.dirBlocks_eq ▸ hb)] at hq
      cases hq
    rw [hsame]

/-- On a tree whose entries of type directory name directories `pass1` ends from some depth on. It then
changes nothing but the numbers in the first two entries of the first blocks, and goes to every
directory of the tree along each entry that names it, if and only if those entries have the type of a
directory, stand behind no unused entry, and are in a later block not among the first two. -/
theorem pass1_touches_iff (hg : Geometry g) (hf : g.Fits img) (ht : TypedTree g img) :
    ∃ n, ∀ fuel, n ≤ fuel → ∃ u v d d', (pass1 g fuel rootInodeNum rootInodeNum).run ⟨img,[]⟩ = .ok u d ∧
      (pass1Noted g written fuel rootInodeNum rootInodeNum).run ⟨img,[]⟩ = .ok v d' ∧
      (OnlyFirstDots g img d.image ∧ Unfolds (g.dirsBelow img) [rootInodeNum] (expanded d'.out) ↔
        ∀ x, g.InTree img x → g.Followed img x) := by
  have hkids : ∀ x, g.InTree img x → (g.pass1Kids img x).Sublist (g.dirsBelow img x) := fun x hx =>
    (pass1Kids_sublist g img x).trans ((ht.dirs x hx).1.subdirs_sublist (ht.types x hx))
  have hreach : ∀ {y}, Reach (g.pass1Kids img) rootInodeNum y → g.InTree img y := by
    intro y hy
    induction hy with
    | refl => exact .refl
    | tail _ hk ih => exact ih.tail ((hkids _ ih).subset hk)
  obtain ⟨l,hl⟩ := (ht.acyclic.of_sub fun y hy _ hk => (hkids y (hreach hy)).subset hk).unfolds
    (reach_finite fun y hy => (ht.dirs y (hreach hy)).1.num_le)
  obtain ⟨m,hm⟩ := ht.acyclic.unfolds (reach_finite fun y hy => (ht.dirs y hy).1.num_le)
  refine ⟨l.length,fun fuel hfuel => ?_⟩
  have hok : ∀ x, g.InTree img x → DirOk g img x ∧ OffTable g img x := fun x hx =>
    ⟨(ht.dirs x hx).1.dirOk,(ht.dirs x hx).2⟩
  let w : Tour := ⟨g.pass1Kids img,fun _ => true,fun _ => True,fun _ => False⟩
  have hwalk : w.Walked (fun (_ : Unit) d => DotsChanged g (g.InTree img) img
      d.image) [rootInodeNum] (fun _ => pass1Noted g written fuel rootInodeNum rootInodeNum)
      fun _ d => DotsChanged g (g.InTree img) img d.image :=
    pass1Noted_walked hg hf written_keepsLog hok (Y := g.InTree img) (fun y hy =>
      Or.inl ⟨hy,notes_written rfl,rfl,fun k hk => hy.tail ((hkids y hy).subset hk)⟩) fuel
      (by unfold Numbers; decide) .refl (Or.inr ⟨l,hl,hfuel⟩)
  rcases hwalk () ⟨img,[]⟩ (.refl fun y hy => (hok y hy).1) with ⟨l',v,d',hl',hr,hch,hout⟩ |
    ⟨_,_,hno⟩ | ⟨_,_,hno,_⟩
  rotate_left
  · exact absurd trivial hno
  · exact absurd hno id
  rcases pass1Noted_same g written written_same fuel rootInodeNum rootInodeNum ⟨img,[]⟩ ⟨img,[]⟩ rfl with
    ⟨_,u,e,d,hr',hp,_,him⟩ | ⟨_,e,_,hr',_⟩
  rotate_left
  · rw [hr] at hr'
    cases hr'
  obtain ⟨rfl,rfl⟩ : v = _ ∧ d' = e := by
    rw [hr] at hr'
    exact ⟨(EStateM.Result.ok.inj hr').1,(EStateM.Result.ok.inj hr').2⟩
  rw [show d'.image = d.image from him] at hch
  rw [hl'.functional hl] at hout
  have hout : expanded d'.out = l := by simpa [w] using hout
  refine ⟨u,_,d,d',hp,hr,fun ⟨_,hunf⟩ x hx => ?_,fun hall => ⟨hch.onlyFirstDots hg ht hall,?_⟩⟩
  · rw [hout] at hunf
    have hlen := (hm.length_sublist (fun y hy => hkids y (hm.mem_iff.mp hy)) hl (.refl _)).2
      (by rw [hunf.functional hm])
    exact ((ht.dirs x hx).1.pass1Kids_eq_iff (ht.types x hx)).mp (hlen.2 x (hm.mem_iff.mpr hx))
  · rw [hout]
    exact hl.congr fun y hy => by
      have hy' := hreach (hl.mem_iff.mp hy)
      exact (((ht.dirs y hy').1.pass1Kids_eq_iff (ht.types y hy')).mpr (hall y hy')).symm

end Touches

theorem formed_tree {img : Buf} {l : List ℕ} (hl : Unfolds ((exampleGlobals 16).dirsBelow img) [rootInodeNum] l)
    (hdirs : ∀ x ∈ l, formedDirCheck (exampleGlobals 16) img x = true)
    (hoff : ∀ x ∈ l, ∀ b ∈ (exampleGlobals 16).dirBlocks img x,
      ∀ y ∈ List.range' 1 (exampleGlobals 16).superBlock.sInodesCount, b ≠ (exampleGlobals 16).inodeBlock y)
    (htypes : ∀ x ∈ l, ∀ e ∈ (exampleGlobals 16).children img x, dirIsDir e = true →
      inodeIsDir ((exampleGlobals 16).inodeAt img e.inode) = true) : TypedTree (exampleGlobals 16) img where
  dirs x hx := ⟨formedDir_of_check (hdirs x (hl.mem_iff.mpr hx)),
    offTable_of_check (hoff x (hl.mem_iff.mpr hx))⟩
  types x hx := htypes x (hl.mem_iff.mpr hx)
  acyclic := hl.acyclic

theorem pass1_touches_iff_tree : ∃ n, ∀ fuel, n ≤ fuel → ∃ u v d d',
    (pass1 (exampleGlobals 16) fuel rootInodeNum rootInodeNum).run ⟨treeImage,[]⟩ = .ok u d ∧
      (pass1Noted (exampleGlobals 16) written fuel rootInodeNum rootInodeNum).run ⟨treeImage,[]⟩ =
        .ok v d' ∧
      (OnlyFirstDots (exampleGlobals 16) treeImage d.image ∧
        Unfolds ((exampleGlobals 16).dirsBelow treeImage) [rootInodeNum] (expanded d'.out) ↔
        ∀ x, (exampleGlobals 16).InTree treeImage x → (exampleGlobals 16).Followed treeImage x) :=
  pass1_touches_iff (by decide) (by decide +kernel)
    (formed_tree (l := [2,11]) (unfolds_of_unfoldFrom (n := 3) (by decide +kernel)) (by decide +kernel)
      (by decide +kernel) (by decide +kernel))

/-- The root has two blocks, 7 and 9; the second begins with the entries for the directories 11 and
12. -/
def splitImage : Buf := exampleImage 16 [
  inodePiece 2 (inodeBytes 0x4000 2048 4 [7,9]), inodePiece 11 (inodeBytes 0x4000 1024 2 [8]),
  inodePiece 12 (inodeBytes 0x4000 1024 2 [10]),
  blockPiece 7 0 (dirBytes 2 2 []), blockPiece 8 0 (dirBytes 11 2 []),
  blockPiece 9 0 (entryBytes 11 12 2 [97,0,0,0] ++ entryBytes 12 1012 2 [98]),
  blockPiece 10 0 (dirBytes 12 2 [])]

/-- Both numbers are overwritten with that of the root, and neither directory is gone to. -/
theorem pass1_cuts_off : TypedTree (exampleGlobals 16) splitImage ∧
    Unfolds ((exampleGlobals 16).dirsBelow splitImage) [2] [2,11,12] ∧
    (exampleGlobals 16).dirData splitImage 2 = [7,9] ∧
    (slotsOf ((exampleGlobals 16).blockAt splitImage 9)).map (fun q => q.2.inode) = [11,12] ∧
    (∃ u d', (pass1 (exampleGlobals 16) 3 2 2).run ⟨splitImage,[]⟩ = .ok u d' ∧
      decide ((slotsOf ((exampleGlobals 16).blockAt d'.image 9)).map (fun q => q.2.inode) = [2,2]) = true) ∧
    ∃ u d', (pass1Noted (exampleGlobals 16) written 3 2 2).run ⟨splitImage,[]⟩ = .ok u d' ∧
      decide (expanded d'.out = [2]) = true := by
  have hl : Unfolds ((exampleGlobals 16).dirsBelow splitImage) [2] [2,11,12] :=
    unfolds_of_unfoldFrom (n := 4) (by decide +kernel)
  exact ⟨formed_tree hl (by decide +kernel) (by decide +kernel) (by decide +kernel),hl,by decide +kernel,
    by decide +kernel,exists_of_endsIn (by decide +kernel),exists_of_endsIn (by decide +kernel)⟩

end MyFsck
