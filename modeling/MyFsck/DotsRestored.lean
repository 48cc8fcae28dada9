import MyFsck.Damage

/-! `pass1` on a damaged image: each of the dots it comes to gets back its number. -/
namespace MyFsck

open ByteBuffer ErrorState Unfolding Tour Mending

section Dots

variable {g : Globals} {clean : Buf} {x p b : ℕ} {visit : ℕ → ℕ → Fsck Unit} {N : ℕ → Set ℕ}

theorem foldEntries_visits {n : ℕ} (hn : 2 ≤ n) {es : List (ℕ × DirEntry)}
    (hv : ∀ k ∈ picked follows n es, Restores (Damaged g clean) (flipped clean) (N k) (visit x k)) (s : Buf) :
    Restores (Damaged g clean) (flipped clean) {i | ∃ k ∈ picked follows n es, i ∈ N k}
      (foldEntries (pass1Entry g visit b p x) n es s) := by
  induction es generalizing n s with
  | nil => exact (Restores.pure s).mono fun i ⟨k,hk,_⟩ => absurd hk List.not_mem_nil
  | cons q es ih =>
    obtain ⟨o,e⟩ := q
    have hrest := ih (n := n+1) (by omega) fun k hk => hv k (List.mem_append_right _ hk)
    rw [foldEntries]
    by_cases hd : dirIsDir e = true
    · have hfol : follows n e = true := by simp [follows,hd,hn]
      have hentry : pass1Entry g visit b p x n o e s = visit x e.inode >>= fun _ => pure s := by
        unfold pass1Entry
        rw [if_pos hd,if_neg (by omega),if_neg (by omega)]
      rw [hentry]
      have hfirst := (hv e.inode (by rw [picked,hfol]; simp)).bind fun _ => Restores.pure s
      refine (hfirst.bind hrest).mono ?_
      rintro i ⟨k,hk,hi⟩
      rw [picked,hfol,if_pos rfl,List.singleton_append] at hk
      rcases List.mem_cons.mp hk with rfl | hk
      · exact Or.inl (Or.inl hi)
      · exact Or.inr ⟨k,hk,hi⟩
    · rw [pass1Entry_right fun h => absurd h hd,pure_bind]
      refine (hrest s).mono ?_
      rintro i ⟨k,hk,hi⟩
      rw [picked,show follows n e = false by simp [follows,hd]] at hk
      exact ⟨k,by simpa using hk,hi⟩

variable {d : Device}

theorem pass1Entry_restores (visit : ℕ → ℕ → Fsck Unit) (hl : GroupLayout g) (hf : g.Fits clean)
    (h : Damaged g clean d) (hlt : b < g.superBlock.sBlocksCount) {n o : ℕ} {e : DirEntry} (hn : n < 2)
    (hin : o+4 ≤ g.blockSize) (hd : dirIsDir e = true) (hright : RightAt p x n e) :
    ∃ d', (pass1Entry g visit b p x n o { e with inode := num (g.blockAt d.image b).byte o 4 }
        (g.blockAt d.image b)).run d = .ok ((g.blockAt d.image b).putNum o e.inode 4) d' ∧
      d'.image = g.setBlock d.image b ((g.blockAt d.image b).putNum o e.inode 4) := by
  generalize hs : g.blockAt d.image b = s
  generalize hnum : num s.byte o 4 = v
  have hsize : s.size = g.blockSize := by rw [← hs,blockAt_size]
  have hdir : dirIsDir { e with inode := v } = true := by
    rw [← hd]
    simp only [dirIsDir]
  by_cases hv : v = e.inode
  · have hsame : s.putNum o e.inode 4 = s := by
      refine Buf.putNum_num (by omega) ?_
      rw [← hv,← hnum]
      exact (Nat.mod_eq_of_lt (num_lt _ _ _)).symm
    have hright' : RightAt p x n { e with inode := v } := by
      rw [hv]
      exact hright
    refine ⟨d,?_,?_⟩
    · rw [hsame,pass1Entry_right hright']
      exact EStateM.run_pure s d
    · rw [hsame,← hs,setBlock_self hl.geometry.sizes (h.fits hf) hlt]
  · have hcall : pass1Entry g visit b p x n o { e with inode := v } s =
        (print (.dirEntryIncorrect e.inode e.name v) >>= fun _ => pass1Corrector g s b o e.inode) := by
      unfold pass1Entry
      rw [if_pos hdir]
      rcases hright hd with ⟨rfl,he⟩ | ⟨rfl,he⟩
      · rw [if_pos rfl,← he,if_pos hv]
      · rw [if_neg (by omega),if_pos rfl,← he,if_pos hv]
    have hwrite := write_whole_run hl.geometry
      (d := ⟨d.image,d.out ++ [.dirEntryIncorrect e.inode e.name v]⟩) hlt
      (show (s.putNum o e.inode 4).size = g.blockSize by rw [Buf.putNum_size,hsize])
    refine ⟨⟨g.setBlock d.image b (s.putNum o e.inode 4),
      d.out ++ [.dirEntryIncorrect e.inode e.name v] ++ writeEvents g b⟩,?_,rfl⟩
    rw [hcall,bind_ok (print_run _ d),pass1Corrector,writeNumberIntoBlock_eq (by omega),
      bind_ok (inBounds_some _ _),bind_ok hwrite]
    rfl

theorem pass1Entry_step (visit : ℕ → ℕ → Fsck Unit) (hl : GroupLayout g) (hf : g.Fits clean)
    (hp : PlainDirs g clean) (hx : Reach (g.pass1Kids clean) rootInodeNum x) (hb : b ∈ g.dirBlocks clean x)
    (hdots : DotsRight g clean p x) (h : Damaged g clean d) {n : ℕ} {q : ℕ × DirEntry} (hn : n < 2)
    (hq : (entriesOf (g.blockAt clean b))[n]? = some q) :
    ∃ d', (pass1Entry g visit b p x n q.1 (renumbered (g.blockAt d.image b) q).2 (g.blockAt d.image b)).run d =
        .ok (g.blockAt d'.image b) d' ∧ Damaged g clean d' ∧
      flipped clean d' ⊆ flipped clean d \ {i | dirIsDir q.2 = true ∧ i ∈ g.numberBits b q} ∧
      ∀ r : ℕ × DirEntry, q.1+8 ≤ r.1 →
        renumbered (g.blockAt d'.image b) r = renumbered (g.blockAt d.image b) r := by
  obtain ⟨o,e⟩ := q
  by_cases hd : dirIsDir e = true
  · have hdot : (o,e) ∈ dots (entriesOf (g.blockAt clean b)) := by
      refine List.mem_filter.mpr ⟨List.mem_of_getElem? (i := n) ?_,hd⟩
      rw [List.getElem?_take_of_lt hn,hq]
    have hin : o+8 ≤ g.blockSize := dot_in ((hp x hx).1.wellFormed b hb) hdot
    obtain ⟨d',hrun,him⟩ := pass1Entry_restores (p := p) visit hl hf h ((hp x hx).1.blocks_lt b hb) hn
      (show o+4 ≤ g.blockSize by omega) hd (hdots b hb n hn _ hq)
    obtain ⟨hd',hsub⟩ := h.write hl hf hp hx hb hdot d'.out
    rw [← him] at hd' hsub
    have hself : g.blockAt d'.image b = (g.blockAt d.image b).putNum o e.inode 4 := by
      rw [him]
      exact blockAt_setBlock_self (by simp)
    refine ⟨d',?_,hd',hsub.trans (Set.sdiff_subset_sdiff_right fun i hi => hi.2),fun r hr => ?_⟩
    · rw [hself]
      exact hrun
    · simp only at hr
      rw [hself,renumbered,renumbered,Buf.num_putNum_disjoint (by omega)]
  · have hentry : pass1Entry g visit b p x n o { e with inode := num (g.blockAt d.image b).byte o 4 }
        (g.blockAt d.image b) = pure (g.blockAt d.image b) := by
      refine pass1Entry_right (fun hd' => absurd ?_ hd) visit b o _
      rw [← hd']
      simp only [dirIsDir]
    exact ⟨d,by rw [renumbered,hentry]; rfl,h,fun i hi => ⟨hi,fun hno => hd hno.1⟩,fun _ _ => rfl⟩

theorem foldEntries_restores (hl : GroupLayout g) (hf : g.Fits clean) (hp : PlainDirs g clean)
    (hx : Reach (g.pass1Kids clean) rootInodeNum x) (hb : b ∈ g.dirBlocks clean x)
    (hdots : DotsRight g clean p x) {es pre : List (ℕ × DirEntry)} {n : ℕ} (hlen : pre.length = n)
    (hn : n ≤ 2) (hes : entriesOf (g.blockAt clean b) = pre ++ es)
    (hv : ∀ k ∈ picked follows n es, Restores (Damaged g clean) (flipped clean) (N k) (visit x k))
    (h : Damaged g clean d) :
    ∃ s' d', (foldEntries (pass1Entry g visit b p x) n (es.map (renumbered (g.blockAt d.image b)))
        (g.blockAt d.image b)).run d = .ok s' d' ∧ Damaged g clean d' ∧
      flipped clean d' ⊆ flipped clean d \ ({i | ∃ q ∈ es.take (2-n), dirIsDir q.2 = true ∧
        i ∈ g.numberBits b q} ∪ {i | ∃ k ∈ picked follows n es, i ∈ N k}) := by
  have hplaces := ((hp x hx).1.wellFormed b hb).places
  induction es generalizing n pre d with
  | nil =>
    refine ⟨_,d,rfl,h,fun i hi => ⟨hi,?_⟩⟩
    rintro (⟨q,hq,_⟩ | ⟨k,hk,_⟩)
    · rw [List.take_nil] at hq
      cases hq
    · cases hk
  | cons q es ih =>
    by_cases hlast : n = 2
    · have hsame : (q::es).map (renumbered (g.blockAt d.image b)) = q::es := by
        refine (List.map_congr_left fun r hr => ?_).trans (List.map_id _)
        refine (h.entries hl hp hx hb).2.2 r (by rw [hes]; exact List.mem_append_right _ hr) fun hdot => ?_
        have hfront := List.mem_of_mem_filter hdot
        rw [hes,List.take_left' (hlen.trans hlast)] at hfront
        rw [hes,List.pairwise_append] at hplaces
        have := hplaces.2.2 r hfront r hr
        omega
      rw [hsame]
      obtain ⟨s',d',hrun,hd',hsub⟩ := foldEntries_visits (b := b) (p := p) (by omega) hv _ d h
      refine ⟨s',d',hrun,hd',hsub.trans (Set.sdiff_subset_sdiff_right ?_)⟩
      rintro i (⟨r,hr,_⟩ | hi)
      · rw [hlast,Nat.sub_self,List.take_zero] at hr
        cases hr
      · exact hi
    · have hlt : n < 2 := by omega
      have hplace : (entriesOf (g.blockAt clean b))[n]? = some q := by
        rw [hes,List.getElem?_append_right (by omega),hlen,Nat.sub_self,List.getElem?_cons_zero]
      have hpick : picked follows n (q::es) = picked follows (n+1) es := by
        rw [picked,show follows n q.2 = false by simp [follows,hlt]]
        simp
      rw [hpick] at hv ⊢
      obtain ⟨d₁,hrun₁,hd₁,hsub₁,hbehind⟩ := pass1Entry_step visit hl hf hp hx hb hdots h hlt hplace
      obtain ⟨s',d',hrun,hd',hsub⟩ := ih (show (pre ++ [q]).length = n+1 by simp [hlen]) (by omega)
        (by rw [hes]; simp) hv hd₁
      have hmap : es.map (renumbered (g.blockAt d₁.image b)) = es.map (renumbered (g.blockAt d.image b)) := by
        rw [hes,List.pairwise_append,List.pairwise_cons] at hplaces
        exact List.map_congr_left fun r hr => hbehind r (hplaces.2.1.1 r hr)
      rw [hmap] at hrun
      refine ⟨s',d',?_,hd',fun i hi => ?_⟩
      · rw [List.map_cons]
        exact (bind_ok hrun₁).trans hrun
      · obtain ⟨hi₁,hno⟩ := hsub hi
        obtain ⟨hi₀,hfield⟩ := hsub₁ hi₁
        refine ⟨hi₀,?_⟩
        rw [show 2-n = (2-(n+1))+1 by omega,List.take_succ_cons]
        rintro (⟨r,hr,hri⟩ | hk)
        · rcases List.mem_cons.mp hr with rfl | hr
          · exact hfield hri
          · exact hno (Or.inl ⟨r,hr,hri⟩)
        · exact hno (Or.inr hk)

theorem pass1Block_restores (hl : GroupLayout g) (hf : g.Fits clean) (hp : PlainDirs g clean)
    (hx : Reach (g.pass1Kids clean) rootInodeNum x) (hb : b ∈ g.dirBlocks clean x)
    (hdots : DotsRight g clean p x) (hv : ∀ k ∈ picked follows 0 (entriesOf (g.blockAt clean b)),
      Restores (Damaged g clean) (flipped clean) (N k) (visit x k)) (i : ℕ) :
    Restores (Damaged g clean) (flipped clean)
      (g.dotBits clean b ∪ {i | ∃ k ∈ picked follows 0 (entriesOf (g.blockAt clean b)), i ∈ N k})
      (pass1Block g visit p x i b ()) := by
  intro d h
  obtain ⟨hes,hwf,-⟩ := h.entries hl hp hx hb
  have hread := block_run hl.geometry.sizes (h.fits hf) ((hp x hx).1.blocks_lt b hb)
  obtain ⟨s,d',hrun,hd',hsub⟩ := foldEntries_restores hl hf hp hx hb hdots List.length_nil
    (by omega) (List.nil_append _).symm hv h
  rw [← hes] at hrun
  refine ⟨(),d',?_,hd',hsub.trans (Set.sdiff_subset_sdiff_right (Set.union_subset_union_left _ ?_))⟩
  · rw [pass1Block_fold hread (blockAt_size b) hwf,bind_ok hrun]
    rfl
  · rintro i ⟨q,hq,hi⟩
    obtain ⟨hmem,hd⟩ := List.mem_filter.mp hq
    exact ⟨q,hmem,hd,hi⟩

theorem foldBlocks_restores (hl : GroupLayout g) (hf : g.Fits clean) (hp : PlainDirs g clean)
    (hx : Reach (g.pass1Kids clean) rootInodeNum x) (hdots : DotsRight g clean p x) {bs : List ℕ}
    (hbs : ∀ b ∈ bs, b ∈ g.dirBlocks clean x)
    (hv : ∀ b ∈ bs, ∀ k ∈ picked follows 0 (entriesOf (g.blockAt clean b)),
      Restores (Damaged g clean) (flipped clean) (N k) (visit x k)) (i : ℕ) :
    Restores (Damaged g clean) (flipped clean) {i | ∃ b ∈ bs, i ∈ g.dotBits clean b ∨
      ∃ k ∈ picked follows 0 (entriesOf (g.blockAt clean b)), i ∈ N k}
      (foldBlocks (pass1Block g visit p x) i bs ()) := by
  induction bs generalizing i with
  | nil => exact (Restores.pure ()).mono fun i ⟨b,hb,_⟩ => absurd hb List.not_mem_nil
  | cons b bs ih =>
    rw [foldBlocks]
    refine ((pass1Block_restores hl hf hp hx (hbs b (by simp)) hdots (hv b (by simp)) i).bind fun _ =>
      ih (fun c hc => hbs c (by simp [hc])) (fun c hc => hv c (by simp [hc])) (i+1)).mono ?_
    rintro j ⟨c,hc,hj⟩
    rcases List.mem_cons.mp hc with rfl | hc
    · exact Or.inl hj
    · exact Or.inr ⟨c,hc,hj⟩

theorem pass1Kids_block {k : ℕ} (hk : k ∈ g.pass1Kids clean x) :
    ∃ b ∈ g.dirBlocks clean x, k ∈ picked follows 0 (entriesOf (g.blockAt clean b)) := by
  have hmem : ∀ (bs : List ℕ) (i : ℕ),
      k ∈ gathered (fun _ b => picked follows 0 (entriesOf (g.blockAt clean b))) i bs →
      ∃ b ∈ bs, k ∈ picked follows 0 (entriesOf (g.blockAt clean b)) := by
    intro bs
    induction bs with
    | nil => exact fun i hk => absurd hk List.not_mem_nil
    | cons c bs ih =>
      intro i hk
      rcases List.mem_append.mp hk with hk | hk
      · exact ⟨c,by simp,hk⟩
      · obtain ⟨b,hb,hkb⟩ := ih (i+1) hk
        exact ⟨b,by simp [hb],hkb⟩
  exact hmem _ 0 hk

theorem pass1_restores (hl : GroupLayout g) (hf : g.Fits clean) (hp : PlainDirs g clean)
    (hdots : DotsSettled g clean) {l : List ℕ} (hu : Unfolds (g.pass1Kids clean) [x] l) :
    Reach (g.pass1Kids clean) rootInodeNum x → ∀ p, DotsRight g clean p x → ∀ fuel, l.length ≤ fuel →
      Restores (Damaged g clean) (flipped clean) (g.dotsBelow clean x) (pass1 g fuel p x) := by
  refine hu.tree_induction (P := fun x l => Reach (g.pass1Kids clean) rootInodeNum x → ∀ p,
    DotsRight g clean p x → ∀ fuel, l.length ≤ fuel →
      Restores (Damaged g clean) (flipped clean) (g.dotsBelow clean x) (pass1 g fuel p x))
    fun x l hkids ih hx p hright fuel hfuel => ?_
  rw [List.length_cons] at hfuel
  cases fuel with
  | zero => omega
  | succ fuel =>
    have hkid : ∀ b ∈ g.dirBlocks clean x, ∀ k ∈ picked follows 0 (entriesOf (g.blockAt clean b)),
        k ∈ g.pass1Kids clean x := fun b hb k hk => mem_gathered hb fun _ => hk
    have hvisit : ∀ b ∈ g.dirBlocks clean x, ∀ k ∈ picked follows 0 (entriesOf (g.blockAt clean b)),
        Restores (Damaged g clean) (flipped clean) (g.dotsBelow clean k) (pass1 g fuel x k) := by
      intro b hb k hk
      have hk' := hkid b hb k hk
      obtain ⟨m,hm,hml⟩ := hkids.sub_unfolds (hkids.starts_mem k hk')
      have hlen := hml.length_le
      exact ih k m hk' hm hlen (fun y hy => hml.subset hy) (hx.tail hk') x (hdots.kids x hx k hk') fuel (by omega)
    have hblocks := foldBlocks_restores hl hf hp hx hright (fun b hb => hb) hvisit 0
    intro d h
    obtain ⟨u,d',hrun,hd',hsub⟩ := hblocks d h
    have hok := (hp x hx).1
    have hsame := h.inode hl hp hok.num_pos hok.num_le
    refine ⟨(),d',?_,hd',hsub.trans (Set.sdiff_subset_sdiff_right ?_)⟩
    · rw [pass1_succ,pass1Call,bind_ok (readInode_run hl.geometry (h.fits hf) hok.num_pos hok.num_le),
        notInodeIsDir_false,forBlocks_eq,show (g.inodeAt d.image x).iBlock = (g.inodeAt clean x).iBlock by
          rw [hsame]]
      exact (bind_ok (show (silent x).run d = .ok () d from rfl)).trans hrun
    · rintro i ⟨y,hreach,b,hb,hi⟩
      rcases Relation.ReflTransGen.cases_head hreach with rfl | ⟨k,hk,hreach⟩
      · exact ⟨b,hb,Or.inl hi⟩
      · obtain ⟨c,hc,hkc⟩ := pass1Kids_block hk
        exact ⟨c,hc,Or.inr ⟨k,hkc,y,hreach,b,hb,hi⟩⟩

end Dots

end MyFsck
