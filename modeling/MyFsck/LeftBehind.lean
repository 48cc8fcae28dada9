import MyFsck.TopmostOrphans

/-! Which orphans the scan of `pass2` passes over. A directory is passed over when a directory below it
was taken in before it: the `..` of that one counts as a reference. -/
namespace MyFsck

open ByteBuffer ErrorState Unfolding

/-- Whether `x` is taken in when nothing above it was: whether of the smaller ones among its kids a
multiple of 256 is taken in. -/
def chosen (kids : ℕ → List ℕ) (x : ℕ) : Bool :=
  (kids x).countP (fun c => if _ : c < x then chosen kids c else false) % 256 == 0
termination_by x
decreasing_by assumption

theorem chosen_eq (kids : ℕ → List ℕ) (x : ℕ) : chosen kids x =
    ((kids x).countP (fun c => decide (c < x) && chosen kids c) % 256 == 0) := by
  rw [chosen]
  congr 3
  funext c
  by_cases h : c < x <;> simp [h]

section Defs

variable (g : Globals) (img : Buf)

/-- The directories that an orphan names. -/
def Globals.childDirs (x : ℕ) : List ℕ :=
  if inodeIsDir (g.inodeAt img x) = true then g.subdirs img x else []

/-- The first two entries of a directory. -/
def Globals.Dots (x self parent : ℕ) : Prop :=
  ∃ b b' t ls, g.links img x = ((self,b)::(parent,b')::t)::ls

/-- The dots of every orphan directory are right: the second entry names the orphan directory that
names it, and no orphan when there is none. -/
structure OrphanDots : Prop where
  dots : ∀ x, g.OrphanDir img x → ∃ p, g.Dots img x x p ∧
    (∀ y, g.OrphanDir img y → x ∈ (g.nonDot img y).map DirEntry.inode → p = y) ∧
    (g.Topmost img x → ¬ g.Orphan img p)

/-- The orphan directory `y` leads to a directory that names `x`. -/
def Globals.Above (y x : ℕ) : Prop :=
  g.OrphanDir img y ∧ ∃ z, Reach (g.subdirs img) y z ∧ x ∈ (g.nonDot img z).map DirEntry.inode

end Defs

section Above

variable {g : Globals} {img : Buf}

theorem above_of_reach {y x : ℕ} (hy : g.OrphanDir img y) (hr : Reach (g.subdirs img) y x)
    (hne : y ≠ x) : g.Above img y x := by
  rcases Relation.ReflTransGen.cases_tail hr with rfl | ⟨z,hz,hk⟩
  · exact absurd rfl hne
  · exact ⟨hy,z,hz,subdirs_named_nonDot hk⟩

theorem OrphanForest.mem_subdirs (h : OrphanForest g img) {x c : ℕ} (hx : g.OrphanDir img x)
    (hc : c ∈ (g.nonDot img x).map DirEntry.inode) (hd : inodeIsDir (g.inodeAt img c) = true) :
    c ∈ g.subdirs img x := by
  obtain ⟨e,he,rfl⟩ := List.mem_map.mp hc
  have hdir : dirIsDir e = true := (h.kids x hx e he).2.trans hd
  exact List.mem_map.mpr ⟨e,List.mem_filter.mpr ⟨he,hdir⟩,rfl⟩

theorem OrphanForest.not_self (h : OrphanForest g img) {x : ℕ} (hx : g.OrphanDir img x) :
    x ∉ (g.nonDot img x).map DirEntry.inode := fun hmem =>
  h.acyclic x hx x .refl (.single (h.mem_subdirs hx hmem hx.2))

theorem OrphanForest.not_above (h : OrphanForest g img) {r : ℕ} (hr : g.Topmost img r) (y : ℕ) :
    ¬ g.Above img y r := by
  rintro ⟨hy,z,hz,hmem⟩
  have hzd := h.reach_orphan hy hz
  by_cases hzr : z = r
  · subst hzr
    exact h.not_self hzd hmem
  · exact hr.2 z hzd hzr hmem

theorem OrphanForest.above_child (h : OrphanForest g img) {x c y : ℕ} (hx : g.OrphanDir img x)
    (hc : c ∈ (g.nonDot img x).map DirEntry.inode) (ha : g.Above img y c) :
    y = x ∨ g.Above img y x := by
  obtain ⟨hy,z,hz,hmem⟩ := ha
  have hzx : z = x := h.one_parent z x (h.reach_orphan hy hz) hx c hmem hc
  subst hzx
  by_cases hyz : y = z
  · exact Or.inl hyz
  · exact Or.inr (above_of_reach hy hz hyz)

theorem treeOf_lt (h : OrphanForest g img) {x c : ℕ} (hx : g.OrphanDir img x)
    (hc : c ∈ g.subdirs img x) : (g.treeOf img c).length < (g.treeOf img x).length := by
  have hcd := h.reach_orphan hx (.single hc)
  obtain ⟨l,hl,hkids⟩ := (treeOf_unfolds (h.unfolds hx)).node_inv
  obtain ⟨m,hm,hs⟩ := hkids.sub_unfolds (hkids.starts_mem c hc)
  rw [← hm.functional (treeOf_unfolds (h.unfolds hcd)),hl,List.length_cons]
  exact Nat.lt_succ_of_le hs.length_le

theorem OrphanForest.exists_topmost (h : OrphanForest g img) {x : ℕ} (hx : g.Orphan img x) :
    ∃ r, g.Topmost img r ∧ (r = x ∨ g.Above img r x) := by
  have hup : ∀ n y, g.OrphanDir img y → g.scanFuel img ≤ n+(g.treeOf img y).length →
      ∃ r, g.Topmost img r ∧ Reach (g.subdirs img) r y ∧ g.OrphanDir img r := by
    intro n
    induction n with
    | zero =>
      intro y hy hn
      refine ⟨y,⟨hy.1,fun z hz hne hmem => ?_⟩,.refl,hy⟩
      have h₁ := treeOf_lt h hz (h.mem_subdirs hz hmem hy.2)
      have h₂ := @treeOf_length_le g img _ hz.1.1.2.1
      omega
    | succ n ih =>
      intro y hy hn
      by_cases htop : g.Topmost img y
      · exact ⟨y,htop,.refl,hy⟩
      · simp only [Globals.Topmost,not_and,not_forall,not_not] at htop
        obtain ⟨z,hz,_,hmem⟩ := htop hy.1
        have hk := h.mem_subdirs hz hmem hy.2
        have h₁ := treeOf_lt h hz hk
        obtain ⟨r,hr,hreach,hrd⟩ := ih z hz (by omega)
        exact ⟨r,hr,hreach.tail hk,hrd⟩
  by_cases htop : g.Topmost img x
  · exact ⟨x,htop,Or.inl rfl⟩
  · simp only [Globals.Topmost,not_and,not_forall,not_not] at htop
    obtain ⟨z,hz,_,hmem⟩ := htop hx
    obtain ⟨r,hr,hreach,hrd⟩ := hup (g.scanFuel img) z hz (Nat.le_add_right _ _)
    exact ⟨r,hr,Or.inr ⟨hrd,z,hreach,hmem⟩⟩

end Above

section Met

variable {g : Globals} {img : Buf}

theorem named_of_dots {ls : List (List (ℕ × Bool))} {self parent : ℕ} {b b' : Bool}
    {t : List (ℕ × Bool)} {l : List (List (ℕ × Bool))} (h : ls = ((self,b)::(parent,b')::t)::l) :
    ls.flatten.map Prod.fst = self::parent::(dropDots ls).map Prod.fst := by
  rw [h]
  simp [dropDots]

theorem OrphanDots.namedAfter (hd : OrphanDots g img) (A : List ℕ) {x : ℕ} (hx : g.OrphanDir img x) :
    ∃ p, g.namedAfter img A x = x::p::(g.nonDot img x).map DirEntry.inode ∧
      ((x ∈ A ∧ g.lostFound img = some p) ∨
        (∀ y, g.OrphanDir img y → x ∈ (g.nonDot img y).map DirEntry.inode → p = y) ∧
        (g.Topmost img x → ¬ g.Orphan img p)) := by
  obtain ⟨p,⟨b,b',t,ls,hls⟩,hp⟩ := hd.dots x hx
  have hsame : g.linksAfter img A x = g.links img x → ∃ p, g.namedAfter img A x =
      x::p::(g.nonDot img x).map DirEntry.inode ∧ ((x ∈ A ∧ g.lostFound img = some p) ∨
        (∀ y, g.OrphanDir img y → x ∈ (g.nonDot img y).map DirEntry.inode → p = y) ∧
        (g.Topmost img x → ¬ g.Orphan img p)) := by
    intro h
    refine ⟨p,?_,Or.inr hp⟩
    rw [Globals.namedAfter,h,named_of_dots hls,nonDot_inodes]
  by_cases hxA : x ∈ A
  · cases hL : g.lostFound img with
    | none =>
      rw [← hL]
      exact hsame (linksAfter_none hL A x)
    | some L =>
      refine ⟨L,?_,Or.inl ⟨hxA,rfl⟩⟩
      have hls' : g.linksAfter img A x = ((x,b)::(L,b')::t)::ls := by
        rw [linksAfter_mem hL hxA,hls]
        rfl
      rw [Globals.namedAfter,named_of_dots hls',dropDots_linksAfter,nonDot_inodes]
  · exact hsame (linksAfter_not_mem hxA)

theorem mem_childDirs {x c : ℕ} : c ∈ g.childDirs img x ↔
    inodeIsDir (g.inodeAt img x) = true ∧ c ∈ g.subdirs img x := by
  rw [Globals.childDirs]
  split <;> simp [*]

theorem OrphanForest.childDirs_nodup (h : OrphanForest g img) {x : ℕ} (hx : g.Orphan img x) :
    (g.childDirs img x).Nodup := by
  rw [Globals.childDirs]
  split
  · have hd : g.OrphanDir img x := ⟨hx,‹_›⟩
    exact (h.one_name x hd).sublist (List.filter_sublist.map _)
  · exact List.nodup_nil

theorem count_tree (h : OrphanForest g img) (hd : OrphanDots g img) {A : List ℕ} {k x : ℕ}
    (hk : g.OrphanDir img k) (hkA : k ∉ A) (hx : g.Orphan img x) (hxk : k ≠ x)
    (hab : ¬ g.Above img k x) :
    ((g.treeOf img k).flatMap (g.namedAfter img A)).count x = (g.childDirs img x).count k := by
  obtain ⟨l,hl,hkids⟩ := (treeOf_unfolds (h.unfolds hk)).node_inv
  have hLx : g.lostFound img ≠ some x := fun hL => not_orphan_of_reach (h.lostFound x hL).reach hx
  have hnd : ∀ y, Reach (g.subdirs img) k y → x ∉ (g.nonDot img y).map DirEntry.inode :=
    fun y hy hmem => hab ⟨hk,y,hy,hmem⟩
  have hne : ∀ y, Reach (g.subdirs img) k y → y ≠ x := by
    rintro y hy rfl
    exact hab (above_of_reach hk hy hxk)
  have hbelow : ∀ y ∈ l, x ∉ g.namedAfter img A y := by
    intro y hy
    obtain ⟨w,hw,hwy⟩ := hkids.reach_of_mem hy
    have hky : Reach (g.subdirs img) k y := .head hw hwy
    have hyd := h.reach_orphan hk hky
    obtain ⟨z,hkz,hzy⟩ : ∃ z, Reach (g.subdirs img) k z ∧ y ∈ g.subdirs img z := by
      rcases Relation.ReflTransGen.cases_tail hky with rfl | hz
      · exact absurd (Relation.TransGen.head' hw hwy) (h.acyclic y hk y .refl)
      · exact hz
    obtain ⟨p,hp,hpar⟩ := hd.namedAfter A hyd
    have hpx : p ≠ x := by
      rintro rfl
      rcases hpar with ⟨_,hL⟩ | ⟨hpar,_⟩
      · exact hLx hL
      · have hpz := hpar z (h.reach_orphan hk hkz) (subdirs_named_nonDot hzy)
        exact hne z hkz hpz.symm
    rw [hp]
    simp only [List.mem_cons,not_or]
    exact ⟨(hne y hky).symm,hpx.symm,hnd y hky⟩
  have hrest : (l.flatMap (g.namedAfter img A)).count x = 0 := by
    refine List.count_eq_zero.mpr fun hmem => ?_
    obtain ⟨y,hy,hmem⟩ := List.mem_flatMap.mp hmem
    exact hbelow y hy hmem
  obtain ⟨p,hp,hpar⟩ := hd.namedAfter A hk
  have hpar := hpar.resolve_left fun h => hkA h.1
  rw [hl,List.flatMap_cons,List.count_append,hp,
    List.count_cons_of_ne hxk,List.count_cons,List.count_eq_zero.mpr (hnd k .refl),hrest]
  simp only [Nat.add_zero,Nat.zero_add,beq_iff_eq]
  by_cases hpx : p = x
  · have hmem : k ∈ g.childDirs img x := by
      by_cases hk' : g.Topmost img k
      · exact absurd (hpx ▸ hx) (hpar.2 hk')
      · simp only [Globals.Topmost,not_and,not_forall,not_not] at hk'
        obtain ⟨y,hy,_,hmem⟩ := hk' hk.1
        obtain rfl : x = y := hpx.symm.trans (hpar.1 y hy hmem)
        exact mem_childDirs.mpr ⟨hy.2,h.mem_subdirs hy hmem hk.2⟩
    rw [if_pos hpx,List.count_eq_one_of_mem (h.childDirs_nodup hx) hmem]
  · rw [if_neg hpx,List.count_eq_zero.mpr]
    intro hmem
    obtain ⟨hxd,hk'⟩ := mem_childDirs.mp hmem
    exact hpx (hpar.1 x ⟨hx,hxd⟩ (subdirs_named_nonDot hk'))

theorem countP_mem_concat {l A : List ℕ} {k : ℕ} (hk : k ∉ A) :
    l.countP (fun c => decide (c ∈ A++[k])) = l.countP (fun c => decide (c ∈ A)) + l.count k := by
  induction l with
  | nil => rfl
  | cons c l ih =>
    rw [List.countP_cons,List.countP_cons,List.count_cons,ih]
    by_cases hck : c = k
    · subst hck
      simp [hk]
      omega
    · by_cases hcA : c ∈ A <;> simp [hcA,hck]
      omega

theorem scanTo_count (h : OrphanForest g img) (hd : OrphanDots g img) {k : ℕ}
    (hA : ∀ a ∈ (g.scanTo img k).taken, g.Orphan img a) {x : ℕ} (hx : g.Orphan img x)
    (hxk : x ∉ (g.scanTo img k).taken) (hab : ∀ a ∈ (g.scanTo img k).taken, ¬ g.Above img a x) :
    (g.scanTo img k).met.count x =
      (g.childDirs img x).countP fun c => decide (c ∈ (g.scanTo img k).taken) := by
  induction k with
  | zero =>
    have hzero : (g.counted img (g.treeOf img rootInodeNum)).count x = 0 := by
      obtain ⟨ds,hds,_⟩ := h.tree.unfolds
      refine List.count_eq_zero.mpr fun hmem => ?_
      obtain ⟨y,hy,hmem⟩ := List.mem_flatMap.mp hmem
      exact hx.2 (h.closed y ((treeOf_unfolds ⟨ds,hds⟩).mem_iff.mp hy) x hmem)
    simpa [Globals.scanTo] using hzero
  | succ k ih =>
    have hsub := (@taken_mono g img _ _ (Nat.le_succ k)).subset
    have ih' := ih (fun a ha => hA a (hsub ha)) (fun hmem => hxk (hsub hmem))
      fun a ha => hab a (hsub ha)
    have hkA : k ∉ (g.scanTo img k).taken := fun hk => absurd (mem_scanTo.mp hk).1 (Nat.lt_irrefl k)
    by_cases hk : g.Allocated img k ∧ (g.scanTo img k).met.count k % 256 = 0
    · have hnext := scanTo_taken hk.1 hk.2
      have hkmem : k ∈ (g.scanTo img (k+1)).taken := by
        rw [hnext]
        simp
      have hko := hA k hkmem
      have hkx : k ≠ x := by
        rintro rfl
        exact hxk hkmem
      rw [hnext]
      dsimp only
      rw [List.count_append,ih',countP_mem_concat hkA]
      congr 1
      by_cases hdir : inodeIsDir (g.inodeAt img k) = true
      · rw [if_pos hdir]
        exact count_tree h hd ⟨hko,hdir⟩ hkA hx hkx (hab k hkmem)
      · rw [if_neg hdir,List.count_nil,List.count_eq_zero.mpr]
        intro hmem
        obtain ⟨hxd,hmem⟩ := mem_childDirs.mp hmem
        exact hdir (h.reach_orphan ⟨hx,hxd⟩ (.single hmem)).2
    · rw [scanTo_skipped hk]
      exact ih'

theorem mem_scanTo_chosen (h : OrphanForest g img) (hd : OrphanDots g img) {x : ℕ}
    (hA : ∀ a ∈ (g.scanTo img x).taken, g.Orphan img a) (hx : g.Orphan img x)
    (hab : ∀ a ∈ (g.scanTo img x).taken, ¬ g.Above img a x) :
    x ∈ (g.scanTo img (x+1)).taken ↔ chosen (g.childDirs img) x = true := by
  induction x using Nat.strong_induction_on with
  | _ x ih =>
    have hxA : x ∉ (g.scanTo img x).taken := fun hx => absurd (mem_scanTo.mp hx).1 (Nat.lt_irrefl x)
    have hcount := scanTo_count h hd hA hx hxA hab
    rw [mem_scanTo,hcount,chosen_eq,beq_iff_eq]
    have hkids : ∀ c ∈ g.childDirs img x, decide (c ∈ (g.scanTo img x).taken) =
        (decide (c < x) && chosen (g.childDirs img) c) := by
      intro c hc
      obtain ⟨hxd,hc⟩ := mem_childDirs.mp hc
      by_cases hcx : c < x
      · have hsub := (@taken_mono g img _ _ hcx.le).subset
        have hsub' := (@taken_mono g img _ _ (Nat.le_succ c)).subset
        have hiff := ih c hcx (fun a ha => hA a (hsub ha)) (h.reach_orphan ⟨hx,hxd⟩ (.single hc)).1
          fun a ha habove => by
            rcases h.above_child ⟨hx,hxd⟩ (subdirs_named_nonDot hc) habove with rfl | habove
            · exact hxA (hsub ha)
            · exact hab a (hsub ha) habove
        have hmem : c ∈ (g.scanTo img x).taken ↔ c ∈ (g.scanTo img (c+1)).taken := by
          rw [mem_scanTo,mem_scanTo]
          exact and_congr_left' (iff_of_true hcx (Nat.lt_succ_self c))
        rw [decide_eq_true hcx,Bool.true_and,Bool.eq_iff_iff,decide_eq_true_iff,hmem,hiff]
      · have hno : c ∉ (g.scanTo img x).taken := fun hmem => hcx (mem_scanTo.mp hmem).1
        rw [decide_eq_false hno,decide_eq_false hcx,Bool.false_and]
    rw [List.countP_congr (fun c hc => by rw [hkids c hc])]
    exact ⟨fun h => h.2.2,fun h => ⟨Nat.lt_succ_self x,hx.1,h⟩⟩

end Met

theorem lostFound_gains {g : Globals} {img img' : Buf} {A : List ℕ} {L : ℕ}
    (hdots : ∃ p q t ls, g.links img L = (p::q::t)::ls)
    (hgains : Gains (g.links img L) (A.map fun a => (a,inodeIsDir (g.inodeAt img a))) (g.links img' L)) :
    (∀ k, k ∈ g.subdirs img' L ↔ k ∈ g.subdirs img L ∨
      (k ∈ A ∧ inodeIsDir (g.inodeAt img k) = true)) ∧
    ∀ k, k ∈ (g.nonDot img' L).map DirEntry.inode ↔
      k ∈ (g.nonDot img L).map DirEntry.inode ∨ k ∈ A := by
  obtain ⟨p,q,t,ls,hls⟩ := hdots
  obtain ⟨_,_,_,hperm⟩ := hgains.dropDots_perm hls
  constructor
  · intro k
    rw [subdirs_links,((hperm.filter _).map Prod.fst).mem_iff,subdirs_links]
    simp
  · intro k
    rw [nonDot_inodes,(hperm.map Prod.fst).mem_iff,nonDot_inodes]
    simp

end MyFsck
